import Treewalk.Tree.Grammar
import Treewalk.Proofs.Grammar.Opening
import Treewalk.Proofs.Grammar.Reading

/-!
# What is read is written so

Every construct that is read without a report derives the tokens that were read. The constructs are
taken one by one, each given the readings of its parts; then the nesting levels are.
-/
namespace Treewalk
namespace Parser
namespace Reads
variable {α : Type}

/-- The reading of a kind of phrase. -/
abbrev Written (phrase : α → Phrase) : Reading α := fun ts _ a => Derives (phrase a) ts

/-- No `else` comes next. -/
def NoElse (rest : List Token) : Prop := ∀ t more, rest = t :: more → t.kind ≠ .else

/-- A statement takes every `else` that can be its own. -/
def StatementRead : Reading Stmt := fun ts rest s =>
  ∃ dangling, Derives (.statement dangling s) ts ∧ (dangling = true → NoElse rest)

/-- The declarations of a block and the brace that ends it. -/
def BlockRead : Reading (List Stmt) := fun ts _ body =>
  ∃ bs last, ts = bs ++ [last] ∧ last.kind = .rightBrace ∧ Derives (.declarations body) bs

/-- A function of a given name, from its parameters on. -/
def FunctionRead (name : Option Token) : Reading FunctionDecl := fun ts _ f =>
  ∃ params body, f = .mk name params body ∧ Derives (.function f) ts

/-! ### Loops -/

/-- Items between commas; each one takes at least one token. -/
theorem commaSeparated {item : Parser α} {D : Reading α} (hi : Reads item D) (surplus : StaticError)
    {B : List Token → List α → Prop}
    (one : ∀ ts rest a, D ts rest a → B ts [a])
    (more : ∀ ts rest a comma us as, D ts rest a → comma.kind = .comma → B us as →
      B (ts ++ comma :: us) (a :: as)) (fuel count : Nat) :
    Reads (Parser.commaSeparated item surplus fuel count) fun ts rest as =>
      (ts ++ rest).length < fuel → B ts as ∧ count + as.length ≤ maxArguments := by
  induction fuel generalizing count with
  | zero => exact pure fun rest h => by simp at h
  | succ fuel ih =>
      have hbody : Reads (item >>= otherItems item surplus fuel (count + 1))
          fun ts rest as => count < maxArguments → (ts ++ rest).length < fuel + 1 →
            B ts as ∧ count + as.length ≤ maxArguments := by
        refine bind hi fun a => bind (take? .comma) fun o => ?_
        cases o with
        | none =>
            refine pure fun rest us h ts hd hlt hl => ?_
            obtain ⟨rfl, -⟩ := h
            simp only [List.append_nil, List.nil_append, List.length_singleton] at hd ⊢
            exact ⟨one _ _ _ hd, by omega⟩
        | some comma =>
            refine bind (ih (count + 1)) fun as => ?_
            refine pure fun rest us hb vs h ts hd hlt hl => ?_
            obtain ⟨rfl, hk⟩ := h
            simp only [List.append_nil, List.nil_append, List.cons_append, List.length_append,
              List.length_cons] at hb hd hl ⊢
            have hb' := hb (by omega)
            exact ⟨more _ _ _ _ _ _ hd hk hb'.1, by omega⟩
      rw [commaSeparated_succ]
      by_cases h : maxArguments ≤ count
      · simp only [h, if_true]
        exact bind (reportHere surplus) fun _ => mono hbody fun _ _ _ _ us hf => hf.elim
      · simp only [h, if_false]
        exact mono hbody fun _ _ _ hd => hd (by omega)

/-- Items up to a brace. -/
theorem untilBrace {item : Parser (List α)} {phrase : List α → Phrase}
    (hi : Reads item fun ts _ as => ∀ bs us, Derives (phrase bs) us →
      Derives (phrase (as ++ bs)) (ts ++ us))
    (hn : Derives (phrase []) []) (fuel : Nat) :
    Reads (Parser.untilBrace item fuel) (Written phrase) := by
  induction fuel with
  | zero => exact pure fun rest => hn
  | succ fuel ih =>
      intro c hc
      unfold Parser.untilBrace
      rw [Watched.get_bind]
      cases hr : c.rest with
      | nil => exact pure (fun rest => hn) c hc
      | cons t rest =>
          simp only
          split
          · exact pure (fun rest => hn) c hc
          · have hb : Reads (item >>= fun first => Parser.untilBrace item fuel >>= fun others =>
                Pure.pure (first ++ others)) (Written phrase) := by
              refine bind hi fun first => bind ih fun others => ?_
              refine pure fun rest us ho ts hf => ?_
              simpa using hf _ _ ho
            exact hb c hc

/-- Operators and operands of one strength; the tree grows to the left. -/
theorem leftward {s s' : Strength} (hs : s.tighter? = some s')
    {operator : Token → Option (Expr → Expr → Expr)} {operand : Parser Expr}
    (ho : ∀ t join, operator t = some join → Infix t s join)
    (hp : Reads operand (Written (.expression s'))) (fuel : Nat) (left : Expr) :
    Reads (Parser.leftward operator operand fuel left) fun ts _ e =>
      ∀ ls, Derives (.expression s left) ls → Derives (.expression s e) (ls ++ ts) := by
  induction fuel generalizing left with
  | zero => exact pure fun rest ls h => by simpa using h
  | succ fuel ih =>
      unfold Parser.leftward
      refine bind (takeMap? operator) fun o => ?_
      cases o with
      | none =>
          refine pure fun rest us h ls hl => ?_
          obtain ⟨rfl, -⟩ := h
          simpa using hl
      | some join =>
          refine bind hp fun right => mono (ih (join left right)) ?_
          intro ts rest e he us hr vs h ls hl
          obtain ⟨t, rfl, ht⟩ := h
          have := he _ (Derives.operation (ho t join ht) hs hl hr)
          simpa using this

/-- Calls and property reads behind an expression. -/
theorem callRest {expression : Parser Expr}
    (he : Reads expression (Written (.expression .assignment))) (fuel : Nat) (callee : Expr) :
    Reads (Parser.callRest expression fuel callee) fun ts _ e =>
      ∀ cs, Derives (.expression .call callee) cs → Derives (.expression .call e) (cs ++ ts) := by
  induction fuel generalizing callee with
  | zero => exact pure fun rest cs h => by simpa using h
  | succ fuel ih =>
      unfold Parser.callRest
      refine bind (take? .leftParen) fun o => ?_
      cases o with
      | none =>
          refine bind (take? .dot) fun o => ?_
          cases o with
          | none =>
              refine pure fun rest us h vs h' cs hc => ?_
              obtain ⟨rfl, -⟩ := h
              obtain ⟨rfl, -⟩ := h'
              simpa using hc
          | some dot =>
              refine bind (expect .identifier .propertyName) fun name => ?_
              refine mono (ih (.get callee name)) ?_
              intro ts rest e he' us hn vs hd ws h' cs hc
              obtain ⟨rfl, hn⟩ := hn
              obtain ⟨rfl, hd⟩ := hd
              obtain ⟨rfl, -⟩ := h'
              simpa using he' _ (Derives.get hc hd hn)
      | some start =>
          have hargs : Reads (Parser.perToken fun fuel =>
              Parser.commaSeparated expression .tooManyArguments fuel 0) fun ts _ es =>
                Derives (.arguments es) ts ∧ es.length ≤ 255 := by
            refine perToken fun fuel => mono (commaSeparated
              (B := fun ts es => Derives (.arguments es) ts) he _ ?_ ?_ fuel 0) ?_
            · exact fun ts rest e h => .argument h
            · exact fun ts rest e comma us es h hk hes => .argumentMore h hk hes
            · intro ts rest es h hl
              obtain ⟨hd, hn⟩ := h hl
              exact ⟨hd, by simpa [maxArguments] using hn⟩
          refine bind (check .rightParen) fun closed => ?_
          cases closed with
          | true =>
              refine bind (D := fun ts _ es => ts = [] ∧ es = []) (pure fun _ => ⟨rfl, rfl⟩)
                fun es => bind (expect .rightParen .argumentsEnd) fun paren => ?_
              refine mono (ih (.call callee paren es)) ?_
              intro ts rest e he' us hp vs hes ws hcl xs hst cs hc
              obtain ⟨rfl, hp⟩ := hp
              obtain ⟨rfl, rfl⟩ := hes
              obtain ⟨rfl, -⟩ := hcl
              obtain ⟨rfl, hst⟩ := hst
              simpa using he' _ (Derives.call hc hst hp)
          | false =>
              refine bind hargs fun es => bind (expect .rightParen .argumentsEnd) fun paren => ?_
              refine mono (ih (.call callee paren es)) ?_
              intro ts rest e he' us hp vs hes ws hcl xs hst cs hc
              obtain ⟨rfl, hp⟩ := hp
              obtain ⟨rfl, -⟩ := hcl
              obtain ⟨rfl, hst⟩ := hst
              simpa using he' _ (Derives.callWith hc hst hes.1 hes.2 hp)

/-! ### Functions and classes -/

theorem parameters : Reads (Parser.perToken fun fuel =>
    Parser.commaSeparated (Parser.expect .identifier .parameterName) .tooManyParameters fuel 0)
    fun ts _ ps => Parameters ts ps := by
  refine perToken fun fuel => mono (commaSeparated (B := Names)
    (expect .identifier .parameterName) _ ?_ ?_ fuel 0) ?_
  · rintro ts rest t ⟨rfl, ht⟩
    exact .one ht
  · rintro ts rest t comma us ps ⟨rfl, ht⟩ hk hps
    exact .more ht hk hps
  · intro ts rest ps h hl
    obtain ⟨hn, hlen⟩ := h hl
    exact .some hn (by simpa [maxArguments] using hlen)

theorem functionRest {block : Parser (List Stmt)} (hb : Reads block BlockRead)
    (label : FunctionLabel) (name : Option Token) :
    Reads (Parser.functionRest block label name) (FunctionRead name) := by
  unfold Parser.functionRest
  refine bind (expect .leftParen _) fun start => bind (check .rightParen) fun closed => ?_
  have hrest : ∀ ps : List Token, Reads (Parser.expect .rightParen .parametersEnd >>= fun _ =>
      Parser.expect .leftBrace (.functionBodyStart label) >>= fun _ => block >>= fun body =>
        Pure.pure (FunctionDecl.mk name ps body))
      fun ts _ f => ∀ start : Token, start.kind = .leftParen → ∀ us, Parameters us ps →
        ∀ rest, FunctionRead name (start :: (us ++ ts)) rest f := by
    intro ps
    refine bind (expect .rightParen _) fun close => bind (expect .leftBrace _) fun brace =>
      bind hb fun body => ?_
    refine pure fun rest us hbody vs hbr ws hcl start hst ts hps rest => ?_
    obtain ⟨bs, last, rfl, hlast, hbody⟩ := hbody
    obtain ⟨rfl, hbr⟩ := hbr
    obtain ⟨rfl, hcl⟩ := hcl
    refine ⟨ps, body, rfl, ?_⟩
    simpa using Derives.function hst hps hcl hbr hbody hlast
  cases closed with
  | true =>
      refine bind (D := fun ts _ ps => ts = [] ∧ ps = []) (pure fun _ => ⟨rfl, rfl⟩)
        fun ps => mono (hrest ps) ?_
      intro ts rest f hf us hps vs hcl ws hst
      obtain ⟨rfl, rfl⟩ := hps
      obtain ⟨rfl, -⟩ := hcl
      obtain ⟨rfl, hst⟩ := hst
      exact hf _ hst [] .none _
  | false =>
      refine bind parameters fun ps => mono (hrest ps) ?_
      intro ts rest f hf us hps vs hcl ws hst
      obtain ⟨rfl, -⟩ := hcl
      obtain ⟨rfl, hst⟩ := hst
      simpa using hf _ hst us hps rest

theorem namedFunction {block : Parser (List Stmt)} (hb : Reads block BlockRead)
    (label : FunctionLabel) :
    Reads (Parser.namedFunction block label) fun ts _ f =>
      ∃ name params body us, ts = name :: us ∧ name.kind = .identifier ∧
        f = .mk (some name) params body ∧ Derives (.function f) us := by
  unfold Parser.namedFunction
  refine bind (expect .identifier _) fun name => mono (functionRest hb label (some name)) ?_
  rintro ts rest f ⟨params, body, rfl, hf⟩ us ⟨rfl, hn⟩
  exact ⟨name, params, body, ts, rfl, hn, rfl, hf⟩

theorem superclassClause : Reads Parser.superclassClause fun ts _ parent => Heritage ts parent := by
  unfold Parser.superclassClause
  refine bind (takeMap? _) fun o => ?_
  cases o with
  | none =>
      refine pure fun rest us h => ?_
      obtain ⟨rfl, -⟩ := h
      exact .none
  | some mark =>
      refine bind (expect .identifier _) fun name => ?_
      refine pure fun rest us hn vs h => ?_
      obtain ⟨rfl, hn⟩ := hn
      obtain ⟨t, rfl, ht⟩ := h
      split at ht
      · next hk => exact .some hk hn
      · cases ht

theorem classDeclaration {block : Parser (List Stmt)} (hb : Reads block BlockRead) :
    Reads (Parser.classDeclaration block) fun ts _ s =>
      ∀ keyword : Token, keyword.kind = .class → Derives (.declaration s) (keyword :: ts) := by
  unfold Parser.classDeclaration
  have hmethod : Reads (Parser.namedFunction block .method >>= fun method => Pure.pure [method])
      fun ts _ as => ∀ bs us, Derives (.methods bs) us →
        Derives (.methods (as ++ bs)) (ts ++ us) := by
    refine bind (namedFunction hb .method) fun f => pure fun rest us h bs vs hbs => ?_
    obtain ⟨name, params, body, ws, rfl, hn, rfl, hf⟩ := h
    simpa using Derives.methodsCons hn hf hbs
  refine bind (expect .identifier _) fun name => bind superclassClause fun parent =>
    bind (expect .leftBrace _) fun brace =>
    bind (perToken fun fuel => mono (untilBrace hmethod .methodsNil fuel) fun _ _ _ h _ => h)
      fun methods => bind (expect .rightBrace _) fun last => ?_
  refine pure fun rest us hl vs hm ws hbr xs hh ys hn keyword hk => ?_
  obtain ⟨rfl, hl⟩ := hl
  obtain ⟨rfl, hbr⟩ := hbr
  obtain ⟨rfl, hn⟩ := hn
  simpa using Derives.declarationClass hk hn hh hbr hm hl

/-! ### Declarations of variables and imports -/

theorem mutability_ofToken {t : Token} {m : Mutability} (h : Mutability.ofToken? t = some m) :
    (m = .variable ∧ t.kind = .var) ∨ (m = .constant ∧ t.kind = .const) := by
  unfold Mutability.ofToken? at h
  split at h
  · next hk => exact .inl ⟨(Option.some.inj h).symm, hk⟩
  · next hk => exact .inr ⟨(Option.some.inj h).symm, hk⟩
  · cases h

theorem variableDeclaration {expression : Parser Expr}
    (he : Reads expression (Written (.expression .assignment))) (mutability : Mutability) :
    Reads (Parser.variableDeclaration expression mutability) fun ts _ s =>
      ∀ keyword : Token, Mutability.ofToken? keyword = some mutability →
        Derives (.variable s) (keyword :: ts) := by
  unfold Parser.variableDeclaration
  refine bind (expect .identifier _) fun name => bind (take? .equal) fun o => ?_
  have hrest : ∀ initial : Option Expr, Reads (Parser.expect .semicolon .variableEnd >>= fun _ =>
      Pure.pure (Stmt.var mutability name initial)) fun ts _ s =>
        ∃ last : Token, ts = [last] ∧ last.kind = .semicolon ∧
          s = .var mutability name initial := by
    intro initial
    refine bind (expect .semicolon _) fun last => pure fun rest us h => ?_
    obtain ⟨rfl, hl⟩ := h
    exact ⟨last, rfl, hl, rfl⟩
  cases o with
  | some equals =>
      refine bind (map (E := fun ts _ o => ∃ e, o = some e ∧ Derives (.expression .assignment e) ts)
        (mono he fun _ _ e h => ⟨e, rfl, h⟩)) fun initial => mono (hrest initial) ?_
      intro ts rest s hs us hi vs heq ws hn keyword hk
      obtain ⟨last, rfl, hl, rfl⟩ := hs
      obtain ⟨e, rfl, hi⟩ := hi
      obtain ⟨rfl, heq⟩ := heq
      obtain ⟨rfl, hn⟩ := hn
      rcases mutability_ofToken hk with ⟨rfl, hv⟩ | ⟨rfl, hv⟩
      · simpa using Derives.variableWith hv hn heq hi hl
      · simpa using Derives.constant hv hn heq hi hl
  | none =>
      have hnone : Reads (Pure.pure none >>= fun initial : Option Expr =>
          Parser.expect .semicolon .variableEnd >>= fun _ =>
            Pure.pure (Stmt.var mutability name initial)) fun ts _ s =>
              ∃ last : Token, ts = [last] ∧ last.kind = .semicolon ∧
                s = .var mutability name none := by
        refine bind (D := fun ts _ o => ts = [] ∧ o = none) (pure fun _ => ⟨rfl, rfl⟩) fun o =>
          mono (hrest o) ?_
        rintro ts rest s ⟨last, rfl, hl, rfl⟩ us ⟨rfl, rfl⟩
        exact ⟨last, rfl, hl, rfl⟩
      by_cases hm : mutability = .constant
      · simp only [hm, if_true] at hnone ⊢
        exact bind (reportAt _ _) fun _ => mono hnone fun _ _ _ _ us h => h.elim
      · simp only [hm, if_false]
        refine mono hnone ?_
        intro ts rest s hs vs heq ws hn keyword hk
        obtain ⟨last, rfl, hl, rfl⟩ := hs
        obtain ⟨rfl, -⟩ := heq
        obtain ⟨rfl, hn⟩ := hn
        rcases mutability_ofToken hk with ⟨rfl, hv⟩ | ⟨rfl, -⟩
        · exact Derives.variable hv hn hl
        · exact absurd rfl hm

theorem importDeclaration (keyword : Token) (hk : keyword.kind = .import) :
    Reads (Parser.importDeclaration keyword) fun ts _ s =>
      Derives (.declaration s) (keyword :: ts) := by
  unfold Parser.importDeclaration
  refine bind (takeMap? _) fun o => ?_
  cases o with
  | none => exact fail _
  | some name =>
      have hrest : ∀ as : Option Token, Reads (Parser.expect .semicolon .importEnd >>= fun _ =>
          Pure.pure (Stmt.importModule keyword name as)) fun ts _ s =>
            ∀ us, Alias us as → name.kind = .identifier ∨ name.kind = .string →
              Derives (.declaration s) (keyword :: name :: (us ++ ts)) := by
        intro as
        refine bind (expect .semicolon _) fun last => pure fun rest us h vs ha hn => ?_
        obtain ⟨rfl, hl⟩ := h
        simpa using Derives.declarationImport hk hn ha hl
      have hname : ∀ ts : List Token, (∃ t, ts = [t] ∧
          (if t.kind = .identifier ∨ t.kind = .string then some t else none) = some name) →
          ts = [name] ∧ (name.kind = .identifier ∨ name.kind = .string) := by
        rintro ts ⟨t, rfl, ht⟩
        split at ht
        · next h =>
            cases ht
            exact ⟨rfl, h⟩
        · cases ht
      refine bind (take? .as) fun o => ?_
      cases o with
      | none =>
          refine bind (D := fun ts _ o => ts = [] ∧ o = none) (pure fun _ => ⟨rfl, rfl⟩) fun as =>
            mono (hrest as) ?_
          intro ts rest s hs us ha vs has ws hn
          obtain ⟨rfl, rfl⟩ := ha
          obtain ⟨rfl, -⟩ := has
          obtain ⟨rfl, hkind⟩ := hname ws hn
          exact hs [] .none hkind
      | some mark =>
          refine bind (map (E := fun ts _ o => ∃ t : Token, o = some t ∧ ts = [t] ∧
            t.kind = .identifier) (mono (expect .identifier _) fun _ _ t h => ⟨t, rfl, h⟩)) fun as =>
            mono (hrest as) ?_
          intro ts rest s hs us ha vs has ws hn
          obtain ⟨t, rfl, rfl, ht⟩ := ha
          obtain ⟨rfl, has⟩ := has
          obtain ⟨rfl, hkind⟩ := hname ws hn
          exact hs _ (.some has ht) hkind

/-! ### Statements -/

theorem expressionStatement {expression : Parser Expr}
    (he : Reads expression (Written (.expression .assignment))) :
    Reads (Parser.expressionStatement expression) fun ts _ s =>
      ∃ e us last, s = .expression e ∧ ts = us ++ [last] ∧ last.kind = .semicolon ∧
        Derives (.expression .assignment e) us := by
  unfold Parser.expressionStatement
  refine bind he fun e => bind (expect .semicolon _) fun last => ?_
  refine pure fun rest us h vs hd => ?_
  obtain ⟨rfl, hl⟩ := h
  exact ⟨e, vs, last, rfl, by simp, hl, hd⟩

theorem unlessNext {expression : Parser Expr}
    (he : Reads expression (Written (.expression .assignment))) (kind : TokenKind) :
    Reads (Parser.unlessNext kind expression) (Written .optional) := by
  unfold Parser.unlessNext
  refine bind (check kind) fun b => ?_
  cases b with
  | true =>
      refine pure fun rest us h => ?_
      obtain ⟨rfl, -⟩ := h
      exact .optionalNone
  | false =>
      refine map (mono he fun ts rest e hd us h => ?_)
      obtain ⟨rfl, -⟩ := h
      exact .optionalSome hd

theorem forInitial {expression : Parser Expr}
    (he : Reads expression (Written (.expression .assignment))) :
    Reads (Parser.forInitial expression) (Written .initial) := by
  unfold Parser.forInitial
  refine bind (take? .semicolon) fun o => ?_
  cases o with
  | some last =>
      refine pure fun rest us h => ?_
      obtain ⟨rfl, hl⟩ := h
      exact .initialNone hl
  | none =>
      refine bind (takeMap? _) fun o => ?_
      cases o with
      | some mutability =>
          refine map (mono (variableDeclaration he mutability) fun ts rest s hd us h vs hn => ?_)
          obtain ⟨keyword, rfl, hk⟩ := h
          obtain ⟨rfl, -⟩ := hn
          exact .initialVariable (hd keyword hk)
      | none =>
          refine map (mono (expressionStatement he) fun ts rest s hd us h vs hn => ?_)
          obtain ⟨e, ws, last, rfl, rfl, hl, hd⟩ := hd
          obtain ⟨rfl, -⟩ := h
          obtain ⟨rfl, -⟩ := hn
          exact .initialExpression hd hl

theorem forStatement {expression : Parser Expr} {statement : Parser Stmt}
    (he : Reads expression (Written (.expression .assignment)))
    (hs : Reads statement StatementRead) (keyword : Token) (hk : keyword.kind = .for) :
    Reads (Parser.forStatement expression statement) fun ts rest s =>
      StatementRead (keyword :: ts) rest s := by
  unfold Parser.forStatement
  refine bind (expect .leftParen _) fun start => bind (forInitial he) fun i =>
    bind (unlessNext he .semicolon) fun c => bind (expect .semicolon _) fun semicolon =>
    bind (unlessNext he .rightParen) fun a => bind (expect .rightParen _) fun close =>
    bind hs fun body => ?_
  refine pure fun rest bs hbody us hcl as ha vs hsemi cs hc is hi ws hst => ?_
  obtain ⟨dangling, hbody, hfree⟩ := hbody
  obtain ⟨rfl, hcl⟩ := hcl
  obtain ⟨rfl, hsemi⟩ := hsemi
  obtain ⟨rfl, hst⟩ := hst
  refine ⟨dangling, ?_, hfree⟩
  cases i with
  | none => simpa [forLoop] using Derives.forFrom hk hst hi hc hsemi ha hcl hbody
  | some i => simpa [forLoop] using Derives.forWith hk hst hi hc hsemi ha hcl hbody

theorem ifStatement {expression : Parser Expr} {statement : Parser Stmt}
    (he : Reads expression (Written (.expression .assignment)))
    (hs : Reads statement StatementRead) (keyword : Token) (hk : keyword.kind = .if) :
    Reads (Parser.ifStatement expression statement) fun ts rest s =>
      StatementRead (keyword :: ts) rest s := by
  unfold Parser.ifStatement
  refine bind (expect .leftParen _) fun start => bind he fun condition =>
    bind (expect .rightParen _) fun close => bind hs fun first => bind (take? .else) fun o => ?_
  cases o with
  | none =>
      refine bind (D := fun ts _ o => ts = [] ∧ o = none) (pure fun _ => ⟨rfl, rfl⟩) fun second =>
        pure fun rest us h vs helse bs hfirst ws hcl cs hc xs hst => ?_
      obtain ⟨rfl, rfl⟩ := h
      obtain ⟨rfl, hfree⟩ := helse
      obtain ⟨dangling, hfirst, -⟩ := hfirst
      obtain ⟨rfl, hcl⟩ := hcl
      obtain ⟨rfl, hst⟩ := hst
      refine ⟨true, by simpa using Derives.ifThen hk hst hc hcl hfirst, fun _ => ?_⟩
      simpa [NoElse] using hfree
  | some other =>
      refine bind (map (E := fun ts rest o => ∃ s, o = some s ∧ StatementRead ts rest s)
        (mono hs fun _ _ s h => ⟨s, rfl, h⟩)) fun second =>
        pure fun rest us h vs helse bs hfirst ws hcl cs hc xs hst => ?_
      obtain ⟨s, rfl, dangling, hsecond, hfree⟩ := h
      obtain ⟨rfl, helse⟩ := helse
      obtain ⟨inner, hfirst, hinner⟩ := hfirst
      obtain ⟨rfl, hcl⟩ := hcl
      obtain ⟨rfl, hst⟩ := hst
      -- The first branch met the `else` and left it, so it cannot dangle.
      have hclosed : inner = false := by
        cases inner with
        | false => rfl
        | true => exact absurd helse (hinner rfl other _ rfl)
      subst hclosed
      exact ⟨dangling, by simpa using Derives.ifElse hk hst hc hcl hfirst helse hsecond, hfree⟩

theorem whileStatement {expression : Parser Expr} {statement : Parser Stmt}
    (he : Reads expression (Written (.expression .assignment)))
    (hs : Reads statement StatementRead) (keyword : Token) (hk : keyword.kind = .while) :
    Reads (Parser.whileStatement expression statement) fun ts rest s =>
      StatementRead (keyword :: ts) rest s := by
  unfold Parser.whileStatement
  refine bind (expect .leftParen _) fun start => bind he fun condition =>
    bind (expect .rightParen _) fun close => bind hs fun body => ?_
  refine pure fun rest bs hbody ws hcl cs hc xs hst => ?_
  obtain ⟨dangling, hbody, hfree⟩ := hbody
  obtain ⟨rfl, hcl⟩ := hcl
  obtain ⟨rfl, hst⟩ := hst
  exact ⟨dangling, by simpa using Derives.while hk hst hc hcl hbody, hfree⟩

theorem printStatement {expression : Parser Expr}
    (he : Reads expression (Written (.expression .assignment))) (keyword : Token)
    (hk : keyword.kind = .print) :
    Reads (Parser.printStatement expression) fun ts rest s =>
      StatementRead (keyword :: ts) rest s := by
  unfold Parser.printStatement
  refine bind he fun e => bind (expect .semicolon _) fun last => pure fun rest us h ts hd => ?_
  obtain ⟨rfl, hl⟩ := h
  exact ⟨false, by simpa using Derives.print hk hd hl, fun h => by cases h⟩

theorem returnStatement {expression : Parser Expr}
    (he : Reads expression (Written (.expression .assignment))) (keyword : Token)
    (hk : keyword.kind = .return) :
    Reads (Parser.returnStatement expression keyword) fun ts rest s =>
      StatementRead (keyword :: ts) rest s := by
  unfold Parser.returnStatement
  refine bind (unlessNext he _) fun e => bind (expect .semicolon _) fun last =>
    pure fun rest us h ts hd => ?_
  obtain ⟨rfl, hl⟩ := h
  exact ⟨false, by simpa using Derives.return hk hd hl, fun h => by cases h⟩

theorem keywordStatement {make : Token → Stmt} {kind : TokenKind}
    (hm : ∀ keyword semicolon : Token, keyword.kind = kind → semicolon.kind = .semicolon →
      Derives (.statement false (make keyword)) [keyword, semicolon])
    (endMark : Expectation) (keyword : Token) (hk : keyword.kind = kind) :
    Reads (Parser.keywordStatement make endMark keyword) fun ts rest s =>
      StatementRead (keyword :: ts) rest s := by
  unfold Parser.keywordStatement
  refine bind (expect .semicolon _) fun last => pure fun rest us h => ?_
  obtain ⟨rfl, hl⟩ := h
  exact ⟨false, hm keyword last hk hl, fun h => by cases h⟩

/-! ### Expressions -/

theorem atom_of_literal {t : Token} {value : Literal} (h : Literal.ofToken? t = some value) :
    Atom t (.literal value) := by
  unfold Literal.ofToken? at h
  split at h
  · next hk => exact Option.some.inj h ▸ .false hk
  · next hk => exact Option.some.inj h ▸ .true hk
  · next hk => exact Option.some.inj h ▸ .nil hk
  · next hk => exact Option.some.inj h ▸ .number hk
  · next hk => exact Option.some.inj h ▸ .string hk
  · cases h

theorem primary {expression : Parser Expr} {block : Parser (List Stmt)}
    (he : Reads expression (Written (.expression .assignment))) (hb : Reads block BlockRead) :
    Reads (Parser.primary expression block) (Written (.expression .primary)) := by
  unfold Parser.primary
  refine fork (fun t value ht => pure fun _ => .atom (atom_of_literal ht)) ?_
  refine forkKind (fun keyword hk => ?_) ?_
  · refine bind (expect .dot _) fun dot => bind (expect .identifier _) fun method =>
      pure fun rest us hm ts hd => ?_
    obtain ⟨rfl, hm⟩ := hm
    obtain ⟨rfl, hd⟩ := hd
    exact .super hk hd hm
  refine forkKind (fun t ht => pure fun _ => .atom (.this ht)) ?_
  refine forkKind (fun t ht => pure fun _ => .atom (.name ht)) ?_
  refine fork (fun keyword t ht => ?_) ?_
  · have hk : keyword.kind = .lambda ∨ keyword.kind = .fun ∨ keyword.kind = .define := by
      split at ht
      · assumption
      · cases ht
    refine bind (functionRest hb .lambda none) fun f => pure fun rest us hf => ?_
    obtain ⟨params, body, rfl, hf⟩ := hf
    simpa using Derives.lambda hk hf
  refine forkKind (fun start hst => ?_) (fail _)
  refine bind he fun e => bind (expect .rightParen _) fun close => pure fun rest us hcl ts hd => ?_
  obtain ⟨rfl, hcl⟩ := hcl
  simpa using Derives.grouping hst hd hcl

end Reads

/-! ### Nesting levels -/

end Parser

/-- The strength of a tier of operators. -/
def Tier.strength : Tier → Strength
  | .or => .or
  | .and => .and
  | .equality => .equality
  | .comparison => .comparison
  | .term => .term
  | .factor => .factor

/-- The strength of the operands of a tier. -/
def Tier.operandStrength (tier : Tier) : Strength :=
  match tier.tighter? with
  | some next => next.strength
  | none => .unary

theorem Tier.tighter?_strength (tier : Tier) :
    tier.strength.tighter? = some tier.operandStrength := by cases tier <;> rfl

theorem Tier.infix_of_binary {tier : Tier} {t : Token} {op : BinaryOp}
    (h : tier.binaryOp? t.kind = some op) :
    Infix t tier.strength fun l r => .binary l op t r := by
  generalize hk : t.kind = kind at h
  unfold binaryOp? at h
  split at h
  · cases h; exact .notEqual hk
  · cases h; exact .equal hk
  · cases h; exact .greater hk
  · cases h; exact .greaterEqual hk
  · cases h; exact .less hk
  · cases h; exact .lessEqual hk
  · cases h; exact .subtract hk
  · cases h; exact .add hk
  · cases h; exact .divide hk
  · cases h; exact .multiply hk
  · cases h; exact .remainder hk
  · cases h

theorem Tier.infix_of_logical {tier : Tier} {t : Token} {op : LogicalOp}
    (h : tier.logicalOp? t.kind = some op) :
    Infix t tier.strength fun l r => .logical l op t r := by
  generalize hk : t.kind = kind at h
  unfold logicalOp? at h
  split at h
  · cases h; exact .or hk
  · cases h; exact .and hk
  · cases h

theorem Tier.infix_of_join {tier : Tier} {t : Token} {join : Expr → Expr → Expr}
    (h : tier.join? t = some join) : Infix t tier.strength join := by
  unfold Tier.join? at h
  split at h
  · next op hop =>
      cases h
      exact infix_of_binary hop
  · next op _ hop =>
      cases h
      exact infix_of_logical hop
  · cases h

namespace Parser
open Reads

theorem unary_ofToken {t t' : Token} {op : UnaryOp} (h : UnaryOp.ofToken? t = some (op, t')) :
    t' = t ∧ ((op = .not ∧ t.kind = .bang) ∨ (op = .negate ∧ t.kind = .minus)) := by
  unfold UnaryOp.ofToken? at h
  split at h
  · next hk =>
      cases h
      exact ⟨rfl, .inl ⟨rfl, hk⟩⟩
  · next hk =>
      cases h
      exact ⟨rfl, .inr ⟨rfl, hk⟩⟩
  · cases h

/-- What the mutually recursive readers read at a nesting level. -/
structure LevelSound (levels : Nat) : Prop where
  declaration : Reads (declaration levels) fun ts _ ss => ∃ s, ss = [s] ∧
    Derives (.declaration s) ts
  statement : Reads (statement levels) StatementRead
  block : Reads (block levels) BlockRead
  expression : Reads (expression levels) (Written (.expression .assignment))
  assignment : Reads (assignment levels) (Written (.expression .assignment))
  chain : ∀ tier, Reads (chain levels tier) (Written (.expression tier.strength))
  unary : Reads (unary levels) (Written (.expression .unary))
  call : Reads (call levels) (Written (.expression .call))

theorem name_of_derives {s : Strength} {use : NameUse} {ts : List Token}
    (h : Derives (.expression s (.name use)) ts) :
    ∃ t : Token, ts = [t] ∧ t.kind = .identifier ∧ use = { name := t } := by
  generalize hp : Phrase.expression s (.name use) = p at h
  induction h generalizing s with
  | tighter _ _ ih =>
      cases hp
      exact ih rfl
  | operation hi =>
      cases hi <;> cases hp
  | atom ha =>
      cases hp
      cases ha with
      | name hk => exact ⟨_, rfl, hk, rfl⟩
  | _ => cases hp

theorem get_of_derives {s : Strength} {object : Expr} {name : Token} {ts : List Token}
    (h : Derives (.expression s (.get object name)) ts) :
    ∃ os dot, ts = os ++ [dot, name] ∧ Derives (.expression .call object) os ∧ dot.kind = .dot ∧
      name.kind = .identifier := by
  generalize hp : Phrase.expression s (.get object name) = p at h
  induction h generalizing s with
  | tighter _ _ ih =>
      cases hp
      exact ih rfl
  | operation hi =>
      cases hi <;> cases hp
  | atom ha =>
      cases hp
      cases ha
  | get ho hd hn =>
      cases hp
      exact ⟨_, _, rfl, ho, hd, hn⟩
  | _ => cases hp

/-- A target is an identifier or a property read; all else is reported. -/
theorem Reads.assignTo (target : Expr) (equals : Token) (value : Expr)
    (hk : equals.kind = .equal) :
    Reads (assignTo target equals value) fun ts _ e => ts = [] ∧ ∀ us vs,
      Derives (.expression .or target) us → Derives (.expression .assignment value) vs →
      Derives (.expression .assignment e) (us ++ equals :: vs) := by
  unfold Parser.assignTo
  cases target with
  | name use =>
      refine Reads.pure fun _ => ⟨rfl, fun us vs ht hv => ?_⟩
      obtain ⟨t, rfl, hn, rfl⟩ := name_of_derives ht
      exact .assign hn hk hv
  | get object name =>
      refine Reads.pure fun _ => ⟨rfl, fun us vs ht hv => ?_⟩
      obtain ⟨os, dot, rfl, ho, hd, hn⟩ := get_of_derives ht
      simpa using Derives.set ho hd hn hk hv
  | _ => exact Reads.bind (Reads.reportAt _ _) fun _ => Reads.pure fun _ _ h => h.elim

theorem functionFollows_run (c : Cursor) :
    functionFollows c =
      match c.rest with
      | t :: next :: _ =>
          .ok (decide ((t.kind = .fun ∨ t.kind = .define) ∧ next.kind = .identifier)) c
      | _ => .ok false c := by
  obtain ⟨rest, endLine, total, reports⟩ := c
  rcases rest with _ | ⟨t, _ | ⟨next, more⟩⟩ <;> rfl

/-- A function declaration begins with its keyword and its name. -/
theorem Reads.functionFollows {yes no : Parser Stmt} {D : Reading Stmt}
    (hyes : ∀ t : Token, t.kind = .fun ∨ t.kind = .define →
      Reads yes fun ts rest s => D (t :: ts) rest s) (hno : Reads no D) :
    Reads (Parser.functionFollows >>= fun b => if b = true then skip >>= fun _ => yes else no)
      D := by
  intro c hc
  have hstay : EStateM.bind Parser.functionFollows
      (fun b => if b = true then skip >>= fun _ => yes else no) c = no c ∨
      ∃ t rest, c.rest = t :: rest ∧ (t.kind = .fun ∨ t.kind = .define) ∧
        EStateM.bind Parser.functionFollows
          (fun b => if b = true then skip >>= fun _ => yes else no) c =
            yes { c with rest := rest } := by
    unfold EStateM.bind
    rw [functionFollows_run]
    split
    · next b c' h =>
        split at h
        · next t next more hr =>
            cases h
            by_cases hk : (t.kind = .fun ∨ t.kind = .define) ∧ next.kind = .identifier
            · refine .inr ⟨t, next :: more, hr, hk.1, ?_⟩
              simp only [hk]
              change yes { c with rest := c.rest.tail } = _
              rw [hr, List.tail_cons]
            · simp [hk]
        · cases h
          exact .inl rfl
    · next h => split at h <;> cases h
  change Outcome c D (EStateM.bind _ _ c)
  rcases hstay with h | ⟨t, rest, hr, hk, h⟩
  · rw [h]
    exact hno c hc
  · rw [h]
    have hstep := Cursor.Follows.advance hr
    have hy := hyes t hk _ (hstep.sized hc)
    cases hres : yes { c with rest := rest } with
    | error e c' =>
        rw [hres] at hy
        exact ⟨hstep.trans hy.1, hy.2⟩
    | ok s c' =>
        rw [hres] at hy
        refine ⟨hstep.trans hy.1, fun hq => ?_⟩
        obtain ⟨ts, hts, hd⟩ := hy.2 hq
        exact ⟨t :: ts, by rw [hr]; exact congrArg (t :: ·) hts, hd⟩

namespace LevelSound

theorem zero : LevelSound 0 where
  declaration := Reads.throw_tooDeep
  statement := Reads.throw_tooDeep
  block := Reads.throw_tooDeep
  expression := Reads.throw_tooDeep
  assignment := Reads.throw_tooDeep
  chain := fun _ => Reads.throw_tooDeep
  unary := Reads.throw_tooDeep
  call := Reads.throw_tooDeep

variable {levels : Nat}

theorem call_succ (ih : LevelSound levels) :
    Reads (Parser.call (levels + 1)) (Written (.expression .call)) := by
  unfold Parser.call
  refine Reads.bind (Reads.primary ih.expression ih.block) fun first =>
    Reads.perToken fun fuel => Reads.mono (Reads.callRest ih.expression fuel first) ?_
  intro ts rest e he _ us hf
  exact he us (.tighter rfl hf)

theorem unary_succ (ih : LevelSound levels) :
    Reads (Parser.unary (levels + 1)) (Written (.expression .unary)) := by
  unfold Parser.unary
  refine Reads.fork (fun t b hb => ?_) (Reads.mono ih.call fun _ _ _ h => .tighter rfl h)
  obtain ⟨op, t'⟩ := b
  obtain ⟨rfl, ⟨rfl, hk⟩ | ⟨rfl, hk⟩⟩ := unary_ofToken hb
  · exact Reads.bind ih.unary fun e => Reads.pure fun rest us h => by
      simpa using Derives.not hk h
  · exact Reads.bind ih.unary fun e => Reads.pure fun rest us h => by
      simpa using Derives.negate hk h

theorem chain_succ (ih : LevelSound levels) (tier : Tier) :
    Reads (Parser.chain (levels + 1) tier) (Written (.expression tier.strength)) := by
  have hoperand : Reads (match tier.tighter? with
      | some next => Parser.chain levels next
      | none => Parser.unary levels) (Written (.expression tier.operandStrength)) := by
    unfold Tier.operandStrength
    cases tier.tighter? with
    | none => exact ih.unary
    | some next => exact ih.chain next
  unfold Parser.chain
  refine Reads.bind hoperand fun first => Reads.perToken fun fuel =>
    Reads.mono (Reads.leftward tier.tighter?_strength (fun t join h => Tier.infix_of_join h)
      hoperand fuel first) ?_
  intro ts rest e he _ us hf
  exact he us (.tighter tier.tighter?_strength hf)

theorem assignment_succ (ih : LevelSound levels) :
    Reads (Parser.assignment (levels + 1)) (Written (.expression .assignment)) := by
  unfold Parser.assignment
  refine Reads.bind (ih.chain .or) fun target => Reads.forkKind (fun equals hk => ?_) ?_
  · refine Reads.bind ih.assignment fun value => Reads.mono (Reads.assignTo target equals value hk) ?_
    rintro ts rest e ⟨rfl, he⟩ us hv vs ht
    simpa using he vs us ht hv
  · exact Reads.pure fun rest us ht => by simpa using Derives.tighter rfl ht

theorem block_succ (ih : LevelSound levels) :
    Reads (Parser.block (levels + 1)) BlockRead := by
  unfold Parser.block
  have hitem : Reads (Parser.declaration levels) fun ts _ as => ∀ bs us,
      Derives (.declarations bs) us → Derives (.declarations (as ++ bs)) (ts ++ us) := by
    refine Reads.mono ih.declaration ?_
    rintro ts rest as ⟨s, rfl, hs⟩ bs us hbs
    exact .declarationsCons hs hbs
  refine Reads.bind (Reads.perToken fun fuel => Reads.mono
    (Reads.untilBrace hitem .declarationsNil fuel) fun _ _ _ h _ => h) fun body =>
    Reads.bind (Reads.expect .rightBrace _) fun last => Reads.pure fun rest us hl bs hb => ?_
  obtain ⟨rfl, hl⟩ := hl
  exact ⟨bs, last, by simp, hl, hb⟩

theorem statement_succ (ih : LevelSound levels) :
    Reads (Parser.statement (levels + 1)) StatementRead := by
  unfold Parser.statement statementForms
  refine Reads.forkKind (fun k hk => Reads.forStatement ih.expression ih.statement k hk) ?_
  refine Reads.forkKind (fun k hk => Reads.ifStatement ih.expression ih.statement k hk) ?_
  refine Reads.forkKind (fun k hk => Reads.printStatement ih.expression k hk) ?_
  refine Reads.forkKind (fun k hk => Reads.returnStatement ih.expression k hk) ?_
  refine Reads.forkKind (fun k hk => Reads.whileStatement ih.expression ih.statement k hk) ?_
  refine Reads.forkKind (fun k hk => Reads.keywordStatement
    (fun _ _ h h' => .break h h') _ k hk) ?_
  refine Reads.forkKind (fun k hk => Reads.keywordStatement
    (fun _ _ h h' => .continue h h') _ k hk) ?_
  refine Reads.forkKind (fun brace hk => Reads.bind ih.block fun body =>
    Reads.pure fun rest us hb => ?_) ?_
  · obtain ⟨bs, last, rfl, hl, hb⟩ := hb
    exact ⟨false, by simpa using Derives.block hk hb hl, fun h => by cases h⟩
  · refine Reads.mono (Reads.expressionStatement ih.expression) ?_
    rintro ts rest s ⟨e, us, last, rfl, rfl, hl, hd⟩
    exact ⟨false, .expressionStatement hd hl, fun h => by cases h⟩

theorem declaration_succ (ih : LevelSound levels) :
    Reads (Parser.declaration (levels + 1)) fun ts _ ss => ∃ s, ss = [s] ∧
      Derives (.declaration s) ts := by
  unfold Parser.declaration
  refine Reads.recovering (Reads.mono (D := Written .declaration) ?_ fun _ _ s h => ⟨s, rfl, h⟩)
  unfold declarationForms
  refine Reads.forkKind (fun k hk => ?_) ?_
  · exact Reads.mono (Reads.classDeclaration ih.block) fun _ _ _ h => h k hk
  refine Reads.functionFollows (fun t ht => ?_) ?_
  · refine Reads.bind (Reads.namedFunction ih.block .function) fun f =>
      Reads.pure fun rest us hf => ?_
    obtain ⟨name, params, body, vs, rfl, hn, rfl, hf⟩ := hf
    simpa using Derives.declarationFunction ht hn hf
  refine Reads.fork (fun k mutability hk => ?_) ?_
  · exact Reads.mono (Reads.variableDeclaration ih.expression mutability) fun _ _ _ h =>
      .declarationVariable (h k hk)
  refine Reads.forkKind (fun k hk => Reads.importDeclaration k hk) ?_
  exact Reads.mono ih.statement fun _ _ _ ⟨_, h, _⟩ => .declarationStatement h

end LevelSound

theorem levelSound (levels : Nat) : LevelSound levels := by
  -- Loops of the reader are bounded by the tokens, so only the nesting needs an induction here.
  induction levels with
  | zero => exact .zero
  | succ levels ih =>
      exact
        { declaration := ih.declaration_succ
          statement := ih.statement_succ
          block := ih.block_succ
          expression := by
            unfold Parser.expression
            exact ih.assignment
          assignment := ih.assignment_succ
          chain := ih.chain_succ
          unary := ih.unary_succ
          call := ih.call_succ }

/-- Declarations up to the end of the input. -/
theorem Reads.program {item : Parser (List Stmt)}
    (hi : Reads item fun ts _ ss => ∃ s, ss = [s] ∧ Derives (.declaration s) ts) (fuel : Nat) :
    Reads (Parser.program item fuel) fun ts rest ss => (ts ++ rest).length < fuel →
      rest = [] ∧ Derives (.declarations ss) ts := by
  induction fuel with
  | zero => exact Reads.pure fun rest h => by simp at h
  | succ fuel ih =>
      intro c hc
      unfold Parser.program
      rw [Watched.get_bind]
      cases hr : c.rest with
      | nil =>
          exact ⟨Cursor.Follows.refl c, fun _ => ⟨[], rfl, fun _ => ⟨hr, .declarationsNil⟩⟩⟩
      | cons t rest =>
          have hb : Reads (item >>= fun first => Parser.program item fuel >>= fun others =>
              Pure.pure (first ++ others)) fun ts rest ss => (ts ++ rest).length < fuel + 1 →
                rest = [] ∧ Derives (.declarations ss) ts := by
            refine Reads.bind hi fun first => Reads.bind ih fun others => ?_
            refine Reads.pure fun rest us ho ts hf hl => ?_
            obtain ⟨s, rfl, hs⟩ := hf
            obtain ⟨t, more, rfl, -⟩ := hs.opening
            simp only [List.append_nil, List.append_assoc, List.length_append,
              List.length_cons, List.length_nil] at ho hl
            obtain ⟨rfl, hd⟩ := ho (by omega)
            simpa using Derives.declarationsCons hs hd
          exact hb c hc

end Parser

/-- The nesting limit was met. -/
def Parsed.TooDeep (p : Parsed) : Prop := ∃ d ∈ p.reports, d.error = .tooMuchNesting

/-- Every list of statements that is read without a report is written so. -/
theorem derives_of_parseTokens {levels endLine : Nat} {tokens : List Token} {T : List Stmt}
    (h : parseTokens levels tokens endLine = ⟨T, []⟩) : Derives (.declarations T) tokens := by
  have hreads := Parser.Reads.perToken fun fuel =>
    Parser.Reads.program (Parser.levelSound levels).declaration fuel
  have hout := hreads { rest := tokens, endLine := endLine } (Nat.le_refl _)
  unfold parseTokens at h
  split at h
  · next statements c hr =>
      rw [hr] at hout
      obtain ⟨rfl, hreports⟩ := Parsed.mk.inj h
      have hsize : c.reports.size = 0 := by simpa using congrArg List.length hreports
      obtain ⟨ts, hts, hrest, hd⟩ := hout.2 hsize
      rw [hrest, List.append_nil] at hts
      rw [show tokens = ts from hts]
      exact hd
  · have hreports := (Parsed.mk.inj h).2
    simp [Cursor.report] at hreports

end Treewalk
