import Treewalk.Proofs.Grammar.Following

/-!
# Any tokens are read to their end

Every construct of the grammar follows its parser. By induction on the nesting levels, so does a
whole token list: reading goes to the end whatever the tokens are, it never looks beyond them, and it
resumes behind every syntax error. Enough nesting levels are known from the number of tokens.
-/
namespace Treewalk
namespace Tracing
namespace Tracks
open Watched
variable {input : Input} {n m k i j left : Nat} {α β : Type}

/-! ### Constructs given the parsers of their parts -/

section
variable {expression : Tracing Expr} {expression' : Parser Expr} {block : Tracing (List Stmt)}
  {block' : Parser (List Stmt)} {statement : Tracing Stmt} {statement' : Parser Stmt}

theorem callRest (he : ∀ m < n, Tracks input m 1 expression expression') (fuel : Nat) :
    ∀ callee, ∀ m ≤ n, m < fuel → Tracks input m 0 (callRest expression fuel callee)
      (Parser.callRest expression' fuel callee) := by
  induction fuel with
  | zero => exact fun _ m _ hm => absurd hm (Nat.not_lt_zero m)
  | succ fuel ih =>
      intro callee m hm hfuel
      unfold Tracing.callRest Parser.callRest
      refine forkKind (fun start j hj => ?_) ?_
      · have hrest : ∀ arguments, Tracks input j 0
            (Tracing.expect .rightParen .argumentsEnd >>= fun paren =>
              Tracing.callRest expression fuel (.call callee paren arguments))
            (Parser.expect .rightParen .argumentsEnd >>= fun paren =>
              Parser.callRest expression' fuel (.call callee paren arguments)) := fun arguments =>
          seq (expect _ _) fun paren => ih _ j (by omega) (by omega)
        refine seq (check _) fun closed => ?_
        cases closed with
        | true => exact seq (pure []) hrest
        | false =>
            exact seq (i := 1) (perToken (commaSeparated (he j (by omega)) _ · 0)) hrest
      · refine forkKind (fun dot j hj => ?_) (pure callee)
        exact seq (expect _ _) fun name => ih _ j (by omega) (by omega)

theorem functionRest (hb : ∀ m < n, Tracks input m 0 block block') (label : FunctionLabel)
    (name : Option Token) :
    Tracks input n 1 (functionRest block label name) (Parser.functionRest block' label name) := by
  unfold Tracing.functionRest Parser.functionRest
  refine bind (expect _ _) fun _ m hm => ?_
  have hrest : ∀ parameters, Tracks input m 0
      (Tracing.expect .rightParen .parametersEnd >>= fun _ =>
        Tracing.expect .leftBrace (.functionBodyStart label) >>= fun _ => block >>= fun body =>
          Pure.pure (FunctionDecl.mk name parameters body))
      (Parser.expect .rightParen .parametersEnd >>= fun _ =>
        Parser.expect .leftBrace (.functionBodyStart label) >>= fun _ => block' >>= fun body =>
          Pure.pure (FunctionDecl.mk name parameters body)) := fun parameters =>
    seq (expect _ _) fun _ => seq (expect _ _) fun _ => seq (hb m hm) fun body => pure _
  refine seq (check _) fun closed => ?_
  cases closed with
  | true => exact seq (pure []) hrest
  | false =>
      exact seq (perToken (commaSeparated (expect _ _) _ · 0)) hrest

theorem namedFunction (hb : ∀ m < n, Tracks input m 0 block block') (label : FunctionLabel) :
    Tracks input n 1 (namedFunction block label) (Parser.namedFunction block' label) :=
  bind (expect _ _) fun name _ hm => (functionRest (fun j hj => hb j (by omega)) label
    (some name)).mono (Nat.le_refl _) (Nat.zero_le 1)

theorem superclassClause : Tracks input n 0 superclassClause Parser.superclassClause :=
  fork (fun _ _ _ _ _ => seq (expect _ _) fun _ => pure _) (pure none)

theorem classDeclaration (hb : ∀ m < n, Tracks input m 0 block block') :
    Tracks input n 0 (classDeclaration block) (Parser.classDeclaration block') := by
  have hmethod : TracksItem input n
      (Tracing.namedFunction block .method >>= fun method => Pure.pure [method])
      (Parser.namedFunction block' .method >>= fun method => Pure.pure [method]) :=
    .of_tracks (seq (namedFunction hb _) fun method => pure [method])
  exact seq (expect _ _) fun name => seq superclassClause fun superclass =>
    seq (expect _ _) fun _ => seq (perToken (untilBrace hmethod)) fun methods =>
    seq (expect _ _) fun _ => pure _

theorem variableDeclaration (he : Tracks input n 1 expression expression')
    (mutability : Mutability) :
    Tracks input n 0 (variableDeclaration expression mutability)
      (Parser.variableDeclaration expression' mutability) := by
  unfold Tracing.variableDeclaration Parser.variableDeclaration
  refine seq (expect _ _) fun name => ?_
  have hrest : ∀ (m : Nat) (initial : Option Expr), Tracks input m 0
      (Tracing.expect .semicolon .variableEnd >>= fun _ =>
        Pure.pure (Stmt.var mutability name initial))
      (Parser.expect .semicolon .variableEnd >>= fun _ =>
        Pure.pure (Stmt.var mutability name initial)) := fun _ _ =>
    seq (expect _ _) fun _ => pure _
  refine forkKind (fun equals m hm => ?_) ?_
  · exact seq ((he.mono (Nat.le_of_lt hm) (Nat.le_refl _)).map some) (hrest m)
  · by_cases hconstant : mutability = .constant
    · simp only [hconstant, if_true] at hrest ⊢
      exact seq (reportAt _ _) fun _ => seq (pure none) (hrest n)
    · simp only [hconstant, if_false]
      exact seq (pure none) (hrest n)

theorem importDeclaration (keyword : Token) :
    Tracks input n 0 (importDeclaration keyword) (Parser.importDeclaration keyword) := by
  refine fork (fun _ name _ m _ => ?_) (fail _)
  have hrest : ∀ (j : Nat) (as : Option Token), Tracks input j 0
      (Tracing.expect .semicolon .importEnd >>= fun _ =>
        Pure.pure (Stmt.importModule keyword name as))
      (Parser.expect .semicolon .importEnd >>= fun _ =>
        Pure.pure (Stmt.importModule keyword name as)) := fun _ _ =>
    seq (expect _ _) fun _ => pure _
  refine forkKind (fun mark j hj => ?_) (seq (pure none) (hrest m))
  exact seq ((expect _ _).map some) (hrest j)

theorem expressionStatement (he : Tracks input n 1 expression expression') :
    Tracks input n 1 (expressionStatement expression) (Parser.expressionStatement expression') :=
  seq he fun _ => seq (expect _ _) fun _ => pure _

theorem forInitial (he : Tracks input n 1 expression expression') :
    Tracks input n 0 (forInitial expression) (Parser.forInitial expression') := by
  refine forkKind (fun _ _ _ => pure none) (fork (fun _ mutability _ m hm => ?_) ?_)
  · exact (variableDeclaration (he.mono (Nat.le_of_lt hm) (Nat.le_refl _)) mutability).map some
  · exact ((expressionStatement he).mono (Nat.le_refl _) (Nat.zero_le 1)).map some

theorem unlessNext (he : Tracks input n 1 expression expression') (kind : TokenKind) :
    Tracks input n 0 (unlessNext kind expression) (Parser.unlessNext kind expression') := by
  unfold Tracing.unlessNext Parser.unlessNext
  refine seq (check kind) fun next => ?_
  cases next with
  | true => exact pure none
  | false => exact (he.mono (Nat.le_refl _) (Nat.zero_le 1)).map some

theorem forStatement (he : Tracks input n 1 expression expression')
    (hs : Tracks input n 1 statement statement') :
    Tracks input n 0 (forStatement expression statement)
      (Parser.forStatement expression' statement') :=
  seq (expect _ _) fun _ => seq (forInitial he) fun _ => seq (unlessNext he _) fun _ =>
    seq (expect _ _) fun _ => seq (unlessNext he _) fun _ => seq (expect _ _) fun _ =>
    seq hs fun _ => pure _

theorem ifStatement (he : Tracks input n 1 expression expression')
    (hs : Tracks input n 1 statement statement') :
    Tracks input n 0 (ifStatement expression statement)
      (Parser.ifStatement expression' statement') := by
  refine seq (expect _ _) fun _ => seq he fun condition => seq (expect _ _) fun _ =>
    seq hs fun thenBranch => ?_
  refine forkKind (fun _ m hm => ?_) (seq (pure none) fun _ => pure _)
  exact seq ((hs.mono (Nat.le_of_lt hm) (Nat.le_refl _)).map some) fun _ => pure _

theorem whileStatement (he : Tracks input n 1 expression expression')
    (hs : Tracks input n 1 statement statement') :
    Tracks input n 0 (whileStatement expression statement)
      (Parser.whileStatement expression' statement') :=
  seq (expect _ _) fun _ => seq he fun _ => seq (expect _ _) fun _ => seq hs fun _ => pure _

theorem printStatement (he : Tracks input n 1 expression expression') :
    Tracks input n 0 (printStatement expression) (Parser.printStatement expression') :=
  seq he fun _ => seq (expect _ _) fun _ => pure _

theorem returnStatement (he : Tracks input n 1 expression expression') (keyword : Token) :
    Tracks input n 0 (returnStatement expression keyword)
      (Parser.returnStatement expression' keyword) :=
  seq (unlessNext he _) fun _ => seq (expect _ _) fun _ => pure _

theorem keywordStatement (make : Token → Stmt) (endMark : Expectation) (keyword : Token) :
    Tracks input n 0 (keywordStatement make endMark keyword)
      (Parser.keywordStatement make endMark keyword) :=
  seq (expect _ _) fun _ => pure _

theorem primary (he : ∀ m < n, Tracks input m 1 expression expression')
    (hb : ∀ m < n, Tracks input m 0 block block') :
    Tracks input n 1 (primary expression block) (Parser.primary expression' block') := by
  refine fork (fun _ _ _ _ _ => pure _) ?_
  refine forkKind (fun _ _ _ => seq (expect _ _) fun _ => seq (expect _ _) fun _ => pure _) ?_
  refine forkKind (fun _ _ _ => pure _) ?_
  refine forkKind (fun _ _ _ => pure _) ?_
  refine fork (fun _ _ _ m hm => ?_) ?_
  · exact seq (functionRest (fun j hj => hb j (by omega)) _ _) fun _ => pure _
  refine forkKind (fun _ m hm => ?_) (fail _)
  exact seq (he m hm) fun _ => seq (expect _ _) fun _ => pure _

theorem assignTo (target : Expr) (equals : Token) (value : Expr) :
    Tracks input n 0 (assignTo target equals value) (Parser.assignTo target equals value) := by
  cases target with
  | name => exact pure _
  | get => exact pure _
  | _ => exact seq (reportAt _ _) fun _ => pure _

/-- A choice by the current token and the next one. -/
theorem functionFollows {yes no : Tracing Stmt} {yes' no' : Parser Stmt}
    (hyes : ∀ m < n, Tracks input m (k - 1) yes yes') (hno : Tracks input n k no no') :
    Tracks input n k
      (functionFollows >>= fun b => if b = true then advance >>= fun _ => yes else no)
      (Parser.functionFollows >>= fun b =>
        if b = true then Parser.skip >>= fun _ => yes' else no') := by
  intro s hs hle
  obtain ⟨s', hrun, hstate, hs'⟩ := functionFollows_quietly hs
  obtain ⟨b, hfollows, hrest⟩ := functionFollows_stays s'.state
  change Agrees input k _
    (EStateM.bind Tracing.functionFollows
      (fun b => if b = true then advance >>= fun _ => yes else no) s)
    (EStateM.bind Parser.functionFollows
      (fun b => if b = true then Parser.skip >>= fun _ => yes' else no') s.state)
  rw [← hstate] at hle ⊢
  rw [EStateM.bind, EStateM.bind, hrun, quietly, hfollows]
  cases b with
  | false => exact hno s' hs' hle
  | true =>
      obtain ⟨t, rest, ht⟩ := List.exists_cons_of_ne_nil (hrest rfl)
      change Agrees input k _ (yes (taken s' s'.state.rest.tail))
        (yes' { s'.state with rest := s'.state.rest.tail })
      rw [ht] at hle ⊢
      exact (hyes rest.length hle (taken s' rest) (progress_taken hs' ht).2 (Nat.le_refl _)).read

theorem declarationForms (he : ∀ m < n, Tracks input m 1 expression expression')
    (hb : ∀ m < n, Tracks input m 0 block block') (hs : Tracks input n 1 statement statement') :
    Tracks input n 1 (declarationForms expression block statement)
      (Parser.declarationForms expression' block' statement') := by
  refine forkKind (fun _ m hm => classDeclaration fun j hj => hb j (by omega)) ?_
  refine functionFollows (fun m hm => ?_) ?_
  · exact seq (namedFunction (fun j hj => hb j (by omega)) _) fun _ => pure _
  refine fork (fun _ mutability _ m hm => variableDeclaration (he m hm) mutability) ?_
  exact forkKind (fun keyword _ _ => importDeclaration keyword) hs

theorem statementForms (he : Tracks input n 1 expression expression')
    (hb : ∀ m < n, Tracks input m 0 block block')
    (hs : ∀ m < n, Tracks input m 1 statement statement') :
    Tracks input n 1 (statementForms expression block statement)
      (Parser.statementForms expression' block' statement') := by
  have hless : ∀ m < n, Tracks input m 1 expression expression' := fun m hm =>
    he.mono (Nat.le_of_lt hm) (Nat.le_refl _)
  refine forkKind (fun _ m hm => forStatement (hless m hm) (hs m hm)) ?_
  refine forkKind (fun _ m hm => ifStatement (hless m hm) (hs m hm)) ?_
  refine forkKind (fun _ m hm => printStatement (hless m hm)) ?_
  refine forkKind (fun keyword m hm => returnStatement (hless m hm) keyword) ?_
  refine forkKind (fun _ m hm => whileStatement (hless m hm) (hs m hm)) ?_
  refine forkKind (fun _ _ _ => keywordStatement _ _ _) ?_
  refine forkKind (fun _ _ _ => keywordStatement _ _ _) ?_
  refine forkKind (fun _ m hm => seq (hb m hm) fun _ => pure _) ?_
  exact expressionStatement he

end

end Tracks

/-! ### Constructs that nest -/

/-- There are so many nesting levels, or reading may be given up. -/
def Room (input : Input) (levels need : Nat) : Prop := levels < need → input.deep

theorem Room.within {input : Input} {levels levels' need need' : Nat}
    (h : Room input levels need) (hle : levels + need' ≤ levels' + need) :
    Room input levels' need' := fun hlt => h (by omega)

/-- The levels of operands, operators in front and operators of tighter tiers. -/
def tierRank : Tier → Nat
  | .factor => 3
  | .term => 4
  | .comparison => 5
  | .equality => 6
  | .and => 7
  | .or => 8

theorem tierRank_tighter {tier next : Tier} (h : tier.tighter? = some next) :
    tierRank tier = tierRank next + 1 := by
  cases tier <;> cases h <;> rfl

theorem tierRank_tightest {tier : Tier} (h : tier.tighter? = none) : tierRank tier = 3 := by
  cases tier <;> cases h
  rfl

/-- Sixteen levels a token are enough, and a few for the constructs that begin at the same token. -/
structure LevelTracks (input : Input) (levels : Nat) : Prop where
  declaration : ∀ n, Room input levels (16 * n + 12) →
    TracksItem input n (declaration levels) (Parser.declaration levels)
  statement : ∀ n, Room input levels (16 * n + 11) →
    Tracks input n 1 (statement levels) (Parser.statement levels)
  block : ∀ n, Room input levels (16 * n + 13) →
    Tracks input n 0 (block levels) (Parser.block levels)
  expression : ∀ n, Room input levels (16 * n + 10) →
    Tracks input n 1 (expression levels) (Parser.expression levels)
  assignment : ∀ n, Room input levels (16 * n + 9) →
    Tracks input n 1 (assignment levels) (Parser.assignment levels)
  chain : ∀ n tier, Room input levels (16 * n + tierRank tier) →
    Tracks input n 1 (chain levels tier) (Parser.chain levels tier)
  unary : ∀ n, Room input levels (16 * n + 2) →
    Tracks input n 1 (unary levels) (Parser.unary levels)
  call : ∀ n, Room input levels (16 * n + 1) →
    Tracks input n 1 (call levels) (Parser.call levels)

namespace LevelTracks
variable {input : Input} {levels : Nat}

theorem zero : LevelTracks input 0 where
  declaration := fun _ h => .of_tracks (.tooDeep (h (by omega)))
  statement := fun _ h => .tooDeep (h (by omega))
  block := fun _ h => .tooDeep (h (by omega))
  expression := fun _ h => .tooDeep (h (by omega))
  assignment := fun _ h => .tooDeep (h (by omega))
  chain := fun n tier h => .tooDeep (h (by cases tier <;> simp [tierRank]))
  unary := fun _ h => .tooDeep (h (by omega))
  call := fun _ h => .tooDeep (h (by omega))

theorem call_succ (ih : LevelTracks input levels) (n : Nat)
    (h : Room input (levels + 1) (16 * n + 1)) :
    Tracks input n 1 (Tracing.call (levels + 1)) (Parser.call (levels + 1)) := by
  have he : ∀ m < n, Tracks input m 1 (Tracing.expression levels) (Parser.expression levels) :=
    fun m hm => ih.expression m (h.within (by omega))
  have hb : ∀ m < n, Tracks input m 0 (Tracing.block levels) (Parser.block levels) :=
    fun m hm => ih.block m (h.within (by omega))
  exact Tracks.seq (Tracks.primary he hb) fun first => Tracks.perToken fun fuel => Tracks.callRest he fuel first

theorem unary_succ (ih : LevelTracks input levels) (n : Nat)
    (h : Room input (levels + 1) (16 * n + 2)) :
    Tracks input n 1 (Tracing.unary (levels + 1)) (Parser.unary (levels + 1)) := by
  refine Tracks.fork (fun _ _ _ m hm => ?_) (ih.call n (h.within (by omega)))
  refine Tracks.seq (ih.unary m (h.within (by omega))) fun operand => ?_
  exact Tracks.pure _

theorem chain_succ (ih : LevelTracks input levels) (n : Nat) (tier : Tier)
    (h : Room input (levels + 1) (16 * n + tierRank tier)) :
    Tracks input n 1 (Tracing.chain (levels + 1) tier) (Parser.chain (levels + 1) tier) := by
  have hchain : ∀ {operand : Tracing Expr} {operand' : Parser Expr},
      Tracks input n 1 operand operand' →
      Tracks input n 1
        (operand >>= fun first => Tracing.perToken fun fuel =>
          Tracing.leftward tier.join? operand fuel first)
        (operand' >>= fun first => Parser.perToken fun fuel =>
          Parser.leftward tier.join? operand' fuel first) := fun hoperand =>
    Tracks.seq hoperand fun first => Tracks.perToken fun fuel =>
      Tracks.leftward hoperand fuel first
  unfold Tracing.chain Parser.chain
  cases htier : tier.tighter? with
  | none =>
      rw [tierRank_tightest htier] at h
      exact hchain (ih.unary n (h.within (by omega)))
  | some next =>
      rw [tierRank_tighter htier] at h
      exact hchain (ih.chain n next (h.within (by omega)))

theorem assignment_succ (ih : LevelTracks input levels) (n : Nat)
    (h : Room input (levels + 1) (16 * n + 9)) :
    Tracks input n 1 (Tracing.assignment (levels + 1)) (Parser.assignment (levels + 1)) := by
  refine Tracks.seq (ih.chain n .or (h.within (by simp [tierRank]; omega))) fun target => ?_
  refine Tracks.forkKind (fun equals m hm => ?_) (Tracks.pure target)
  exact Tracks.seq (ih.assignment m (h.within (by omega))) fun value => Tracks.assignTo target equals value

theorem block_succ (ih : LevelTracks input levels) (n : Nat)
    (h : Room input (levels + 1) (16 * n + 13)) :
    Tracks input n 0 (Tracing.block (levels + 1)) (Parser.block (levels + 1)) :=
  Tracks.seq (Tracks.perToken (Tracks.untilBrace (ih.declaration n (h.within (by omega))))) fun _ =>
    Tracks.seq (Tracks.expect _ _) fun _ => Tracks.pure _

theorem statement_succ (ih : LevelTracks input levels) (n : Nat)
    (h : Room input (levels + 1) (16 * n + 11)) :
    Tracks input n 1 (Tracing.statement (levels + 1)) (Parser.statement (levels + 1)) :=
  Tracks.statementForms (ih.expression n (h.within (by omega)))
    (fun m hm => ih.block m (h.within (by omega)))
    (fun m hm => ih.statement m (h.within (by omega)))

theorem declaration_succ (ih : LevelTracks input levels) (n : Nat)
    (h : Room input (levels + 1) (16 * n + 12)) :
    TracksItem input n (Tracing.declaration (levels + 1)) (Parser.declaration (levels + 1)) :=
  .recovering (Tracks.declarationForms (fun m hm => ih.expression m (h.within (by omega)))
    (fun m hm => ih.block m (h.within (by omega))) (ih.statement n (h.within (by omega))))

end LevelTracks

theorem levelTracks (input : Input) (levels : Nat) : LevelTracks input levels := by
  induction levels with
  | zero => exact .zero
  | succ levels ih =>
      exact
        { declaration := ih.declaration_succ
          statement := ih.statement_succ
          block := ih.block_succ
          expression := fun n h => ih.assignment n (h.within (by omega))
          assignment := ih.assignment_succ
          chain := ih.chain_succ
          unary := ih.unary_succ
          call := ih.call_succ }

/-! ### Whole token lists -/

/-- Declarations are read up to the end, unless the bound is used up. -/
theorem program_ends {item : Tracing (List Stmt)} (fuel : Nat) {s s' : Watched Cursor ReadingMark}
    {statements : List Stmt} (h : program item fuel s = .ok statements s') :
    s'.state.rest = [] ∨ ∃ m ∈ s'.notes, m.event = .exhausted := by
  induction fuel generalizing s statements with
  | zero =>
      cases h
      exact .inr ⟨_, List.mem_cons_self, rfl⟩
  | succ fuel ih =>
      unfold program at h
      obtain ⟨found, s₁, hfound, h⟩ := Watched.bind_ok h
      cases hfound
      cases hrest : s.state.rest with
      | nil =>
          rw [hrest] at h
          cases h
          exact .inl hrest
      | cons t rest =>
          rw [hrest] at h
          obtain ⟨first, s₂, -, h⟩ := Watched.bind_ok h
          obtain ⟨others, s₃, hothers, h⟩ := Watched.bind_ok h
          cases h
          exact ih hothers

end Tracing

/-- No syntax error is left over by a parser. -/
def Parser.Catches {α : Type} (p : Parser α) : Prop := ∀ c c', p c ≠ .error .unwind c'

namespace Parser.Catches
variable {α β : Type}

theorem bind {p : Parser α} {f : α → Parser β} (hp : Catches p) (hf : ∀ a, Catches (f a)) :
    Catches (p >>= f) := by
  intro c c' h
  change EStateM.bind p f c = _ at h
  unfold EStateM.bind at h
  cases hr : p c with
  | ok a c₁ =>
      rw [hr] at h
      exact hf a c₁ c' h
  | error e c₁ =>
      rw [hr] at h
      cases h
      exact hp c c' hr

theorem pure (a : α) : Catches (Pure.pure a) := fun _ _ h => by cases h

theorem recovering (p : Parser α) : Catches (Parser.recovering p) := by
  intro c c' h
  unfold Parser.recovering at h
  split at h <;> cases h

theorem declaration (levels : Nat) : Catches (declaration levels) := by
  cases levels with
  | zero => exact fun _ _ h => by cases h
  | succ levels => exact recovering _

theorem program {item : Parser (List Stmt)} (h : Catches item) (fuel : Nat) :
    Catches (program item fuel) := by
  induction fuel with
  | zero => exact pure []
  | succ fuel ih =>
      intro c
      unfold Parser.program
      rw [Watched.get_bind]
      cases c.rest with
      | nil => exact pure [] c
      | cons t rest => exact bind h (fun first => bind ih fun others => pure (first ++ others)) c

end Parser.Catches

open Tracing Watched

/-- A token list is read as by the parser, and no syntax error is left over. -/
theorem traceTokens_ends (levels : Nat) (tokens : List Token) (endLine : Nat) :
    (∃ statements s, traceTokens levels tokens endLine = .ok statements s ∧
      Parser.perToken (Parser.program (Parser.declaration levels))
        { rest := tokens, endLine := endLine } = .ok statements s.state ∧
      Progress tokens endLine none s.state s.notes) ∨
    (levels < 16 * (tokens.length + 1) ∧
      ∃ s, traceTokens levels tokens endLine = .error .tooDeep s ∧
        Parser.perToken (Parser.program (Parser.declaration levels))
          { rest := tokens, endLine := endLine } = .error .tooDeep s.state ∧
        Progress tokens endLine none s.state s.notes) := by
  let input : Input := ⟨tokens, endLine, levels < 16 * (tokens.length + 1)⟩
  have hitem : TracksItem input tokens.length (declaration levels) (Parser.declaration levels) :=
    (levelTracks input levels).declaration tokens.length fun h => by
      change levels < 16 * (tokens.length + 1)
      omega
  have hagrees : Agrees input 0 tokens.length (traceTokens levels tokens endLine) _ :=
    Tracks.perToken (Tracks.program hitem)
      { state := { rest := tokens, endLine := endLine } } .start (Nat.le_refl _)
  obtain ⟨hsame, hends⟩ := hagrees
  match htrace : traceTokens levels tokens endLine with
  | .ok statements s =>
      rw [htrace] at hsame hends
      exact .inl ⟨statements, s, rfl, hsame.symm, hends.1⟩
  | .error .unwind s =>
      rw [htrace] at hsame
      exact ((Parser.Catches.declaration levels).program _ _ _ hsame.symm).elim
  | .error .tooDeep s =>
      rw [htrace] at hsame hends
      exact .inr ⟨hends.2, s, rfl, hsame.symm, hends.1⟩

/-- What is true of all that happens while tokens are read: only these tokens are looked at, reading
goes ahead, each round of a loop takes a token, and no loop uses up its bound. -/
structure WellRead (tokens : List Token) (endLine : Nat) (notes : List ReadingMark) : Prop where
  fits : ∀ m ∈ notes, m.Fits tokens endLine
  inside : ∀ m ∈ notes, m.position ≤ tokens.length
  ahead : notes.Pairwise fun later earlier => earlier.position ≤ later.position

theorem Progress.wellRead {tokens : List Token} {endLine : Nat} {error : Option Nat} {c : Cursor}
    {notes : List ReadingMark} (h : Progress tokens endLine error c notes) :
    WellRead tokens endLine notes where
  fits := h.fits
  inside := fun m hm => Nat.le_trans (h.ordered.1 m hm) (Nat.le.intro h.position_add)
  ahead := h.ordered.2

/-- Whatever the tokens are, they are read to their end, unless there are too few nesting levels: no
syntax error is left over, and if there was none, no declaration was dropped. -/
theorem tokens_read_to_end (levels : Nat) (tokens : List Token) (endLine : Nat) :
    (∃ statements s, traceTokens levels tokens endLine = .ok statements s ∧
      Parser.perToken (Parser.program (Parser.declaration levels))
        { rest := tokens, endLine := endLine } = .ok statements s.state ∧
      parseTokens levels tokens endLine = ⟨statements, s.state.reports.toList⟩ ∧
      s.state.position = tokens.length ∧ WellRead tokens endLine s.notes ∧
      (s.state.reports.toList = [] → ∀ m ∈ s.notes, m.event ≠ .resumed)) ∨
    (levels < 16 * (tokens.length + 1) ∧
      ∃ s, traceTokens levels tokens endLine = .error .tooDeep s ∧
        Parser.perToken (Parser.program (Parser.declaration levels))
          { rest := tokens, endLine := endLine } = .error .tooDeep s.state ∧
        WellRead tokens endLine s.notes) := by
  rcases traceTokens_ends levels tokens endLine with
    ⟨statements, s, htrace, hrun, hprogress⟩ | ⟨hlevels, s, htrace, hrun, hprogress⟩
  · refine .inl ⟨statements, s, htrace, hrun, ?_, ?_, hprogress.wellRead, fun hreports => ?_⟩
    · rw [parseTokens, hrun]
    · have hadd := hprogress.position_add
      rcases program_ends _ htrace with hrest | ⟨m, hm, hexhausted⟩
      · rw [hrest] at hadd
        exact hadd
      · have hfits := hprogress.fits m hm
        rw [ReadingMark.Fits, hexhausted] at hfits
        exact hfits.elim
    · have hsize : s.state.reports.size = 0 := by simpa using congrArg List.length hreports
      exact (hprogress.not_resumed hsize).2
  · exact .inr ⟨hlevels, s, htrace, hrun, hprogress.wellRead⟩

/-- A statement that is read to its end, and of which nothing is dropped. -/
theorem tokens_read_to_end_print :
    let t (kind : TokenKind) : Token := { kind := kind, lexeme := "", line := 1 }
    ∃ s, traceTokens 64 [t .print, t .nil, t .semicolon] 1 = .ok [.print (.literal .nil)] s ∧
      s.state.position = 3 ∧ WellRead [t .print, t .nil, t .semicolon] 1 s.notes ∧
      ∀ m ∈ s.notes, m.event ≠ .resumed := by
  intro t
  have hparse : parseTokens 64 [t .print, t .nil, t .semicolon] 1 =
      ⟨[.print (.literal .nil)], []⟩ := rfl
  rcases tokens_read_to_end 64 [t .print, t .nil, t .semicolon] 1 with
    ⟨statements, s, htrace, -, hread, hend, hwell, hkept⟩ | ⟨hlevels, -⟩
  · obtain ⟨rfl, hreports⟩ := Parsed.mk.inj (hparse.symm.trans hread)
    exact ⟨s, htrace, hend, hwell, hkept hreports.symm⟩
  · exact absurd hlevels (by decide)

/-- Where a watched parser ends. -/
def Tracing.lastState {α : Type} :
    EStateM.Result ParseStop (Watched Cursor ReadingMark) α → Watched Cursor ReadingMark
  | .ok _ s => s
  | .error _ s => s

/-- Every syntax error is reported at the token it unwinds at, and then tokens are only looked at
until reading resumes, at the first boundary behind that token. -/
theorem reading_resumes (levels : Nat) (tokens : List Token) (endLine : Nat)
    {later earlier : List ReadingMark} {i : Nat} {d : Diagnostic}
    (h : (lastState (traceTokens levels tokens endLine)).notes =
      later ++ ⟨i, .unwound d⟩ :: earlier) :
    (d ∈ (parseTokens levels tokens endLine).reports ∧ d.place = placeAt tokens endLine i) ∧
      ∃ later' looks j, later = later' ++ ⟨j, .resumed⟩ :: looks ∧ (∀ m ∈ looks, m.IsLook) ∧
        ResumesAt tokens i j := by
  have hmem : ⟨i, .unwound d⟩ ∈ later ++ ⟨i, .unwound d⟩ :: earlier :=
    List.mem_append_right later List.mem_cons_self
  rcases traceTokens_ends levels tokens endLine with
    ⟨statements, s, htrace, hrun, hprogress⟩ | ⟨-, s, htrace, hrun, hprogress⟩
  · rw [htrace] at h
    rw [← h] at hmem
    rw [parseTokens, hrun]
    exact ⟨⟨hprogress.reported hmem, hprogress.fits _ hmem⟩, hprogress.answeredBut _ _ _ _ h⟩
  · rw [htrace] at h
    rw [← h] at hmem
    rw [parseTokens, hrun]
    have hlast := hprogress.report s.state.place .tooMuchNesting
    exact ⟨⟨hlast.reported hmem, hprogress.fits _ hmem⟩, hprogress.answeredBut _ _ _ _ h⟩

/-- A keyword at which an error is reported is a boundary, but reading resumes behind it. -/
theorem reading_resumes_behind_keyword :
    let t (kind : TokenKind) : Token := { kind := kind, lexeme := "", line := 1 }
    let tokens := [t .print, t .print, t .semicolon]
    StatementBoundary tokens 1 ∧
      ∃ later earlier d j, (lastState (traceTokens 64 tokens 1)).notes =
          later ++ ⟨1, .unwound d⟩ :: earlier ∧
        ⟨j, .resumed⟩ ∈ later ∧ ResumesAt tokens 1 j ∧ 1 < j := by
  intro t tokens
  refine ⟨.inr (.inl ⟨t .print, rfl, rfl⟩), ?_⟩
  have hany : (lastState (traceTokens 64 tokens 1)).notes.any (fun
      | ⟨1, .unwound _⟩ => true
      | _ => false) = true := by decide +kernel
  obtain ⟨m, hmem, hunwound⟩ := List.any_eq_true.mp hany
  split at hunwound
  · next d =>
      obtain ⟨later, earlier, hnotes⟩ := List.append_of_mem hmem
      obtain ⟨-, later', looks, j, rfl, -, hresumes⟩ := reading_resumes 64 tokens 1 hnotes
      refine ⟨_, earlier, d, j, hnotes, by simp, hresumes, ?_⟩
      rcases hresumes with ⟨hend, -⟩ | ⟨-, hleast⟩
      · cases hend
      · exact hleast.1.1
  · cases hunwound

end Treewalk
