import Treewalk.Proofs.Grammar.Opening
import Treewalk.Proofs.Grammar.Running
import Treewalk.Proofs.Grammar.Soundness

/-!
# What is written so is read

Every derivation is found by the reader. By induction on derivations, a phrase is accepted where
the next token does not go on with it; loops that grow a tree to the left are followed round by
round. Sixteen nesting levels a token are enough for every construct, and if there are fewer the
reader may give up.
-/
namespace Treewalk

/-- The strength at which a token goes on with the expression before it. -/
def TokenKind.continues? : TokenKind → Option Strength
  | .equal => some .assignment
  | .or => some .or
  | .and => some .and
  | .equalEqual | .bangEqual => some .equality
  | .less | .lessEqual | .greater | .greaterEqual => some .comparison
  | .plus | .minus => some .term
  | .star | .slash | .percent => some .factor
  | .leftParen | .dot => some .call
  | _ => none

namespace Strength

/-- The next token goes on with no expression of this strength. -/
def Stops (s : Strength) (rest : List Token) : Prop :=
  ∀ t more s', rest = t :: more → t.kind.continues? = some s' → s'.rank < s.rank

theorem Stops.mono {s s' : Strength} {rest : List Token} (h : s.Stops rest)
    (hr : s.rank ≤ s'.rank) : s'.Stops rest := fun t more s'' ht hk =>
  Nat.lt_of_lt_of_le (h t more s'' ht hk) hr

theorem Stops.cons {s : Strength} {t : Token} (h : t.kind.continues? = none)
    (more : List Token) : s.Stops (t :: more) := by
  intro t' more' s' ht hk
  cases ht
  rw [h] at hk
  cases hk

theorem Stops.before {s s' : Strength} {t : Token} (h : t.kind.continues? = some s')
    (hr : s'.rank < s.rank) (more : List Token) : s.Stops (t :: more) := by
  intro t' more' s'' ht hk
  cases ht
  rw [h] at hk
  cases hk
  exact hr

/-- A token that goes on with expressions of this strength does not come next. -/
theorem Stops.kind_ne {s : Strength} {rest : List Token} (h : s.Stops rest) {kind : TokenKind}
    (hk : kind.continues? = some s) (t : Token) (more : List Token) (ht : rest = t :: more) :
    t.kind ≠ kind := by
  intro he
  have := h t more s ht (by rw [he, hk])
  omega

/-- The strengths whose trees grow to the left, with those of the parts. -/
def grows? : Strength → Option Strength
  | .assignment | .unary | .primary => none
  | s => s.tighter?

theorem tighter_of_grows {s s' : Strength} (h : s.grows? = some s') : s.tighter? = some s' := by
  cases s <;> first | exact h | cases h

/-- The tokens of an expression need sixteen levels each, less these. -/
def margin (s : Strength) : Nat := s.rank + 7

end Strength

theorem Infix.continues {t : Token} {s : Strength} {join : Expr → Expr → Expr}
    (h : Infix t s join) : t.kind.continues? = some s := by
  cases h <;> next hk => rw [hk]; rfl

theorem Infix.tier {t : Token} {s : Strength} {join : Expr → Expr → Expr} (h : Infix t s join) :
    ∃ tier : Tier, tier.strength = s ∧ tier.join? t = some join := by
  cases h with
  | or hk => exact ⟨.or, rfl, by simp [Tier.join?, hk, Tier.binaryOp?, Tier.logicalOp?]⟩
  | and hk => exact ⟨.and, rfl, by simp [Tier.join?, hk, Tier.binaryOp?, Tier.logicalOp?]⟩
  | equal hk | notEqual hk => exact ⟨.equality, rfl, by simp [Tier.join?, hk, Tier.binaryOp?]⟩
  | less hk | lessEqual hk | greater hk | greaterEqual hk =>
      exact ⟨.comparison, rfl, by simp [Tier.join?, hk, Tier.binaryOp?]⟩
  | add hk | subtract hk => exact ⟨.term, rfl, by simp [Tier.join?, hk, Tier.binaryOp?]⟩
  | multiply hk | divide hk | remainder hk =>
      exact ⟨.factor, rfl, by simp [Tier.join?, hk, Tier.binaryOp?]⟩

theorem Tier.join?_eq_none {tier : Tier} {rest : List Token} (h : tier.strength.Stops rest)
    (t : Token) (more : List Token) (ht : rest = t :: more) : tier.join? t = none := by
  cases hj : tier.join? t with
  | none => rfl
  | some join => exact absurd rfl (h.kind_ne (Tier.infix_of_join hj).continues t more ht)

theorem Tier.grows_strength (tier : Tier) :
    tier.strength.grows? = some tier.operandStrength := by cases tier <;> rfl

/-- A token of another kind does not come first. -/
theorem Opens.kind_ne {kinds : TokenKind → Bool} {ts : List Token} (h : Opens kinds ts)
    {k : TokenKind} (hk : kinds k = false) (rest : List Token) (t : Token) (more : List Token)
    (ht : ts ++ rest = t :: more) : t.kind ≠ k := by
  intro he
  have := (h.append rest).kind ht
  rw [he, hk] at this
  cases this

theorem kind_ne_of_front {front : Token} {u rest : List Token} {kind kind' : TokenKind}
    (h : front.kind = kind) (hn : kind ≠ kind') (t : Token) (more : List Token)
    (ht : (front :: u) ++ rest = t :: more) : t.kind ≠ kind' := by
  cases ht
  rw [h]
  exact hn

theorem none_of_front {β : Type} {f : Token → Option β} {front : Token} {u rest : List Token}
    (h : f front = none) (t : Token) (more : List Token) (ht : (front :: u) ++ rest = t :: more) :
    f t = none := by
  cases ht
  exact h

namespace Parser
open Reads (NoElse)

/-- There are levels for all tokens, unless the reader may give up. -/
def Room (deep : Prop) (levels : Nat) (ts : List Token) : Prop := levels < 16 * ts.length → deep

theorem Room.within {deep : Prop} {levels levels' : Nat} {ts us : List Token}
    (h : Room deep levels ts) (hl : 16 * us.length + levels ≤ levels' + 16 * ts.length) :
    Room deep levels' us := fun hd => h (by omega)

/-- The reader of expressions of a strength. -/
def ofStrength (levels : Nat) : Strength → Parser Expr
  | .assignment => assignment levels
  | .or => chain levels .or
  | .and => chain levels .and
  | .equality => chain levels .equality
  | .comparison => chain levels .comparison
  | .term => chain levels .term
  | .factor => chain levels .factor
  | .unary => unary levels
  | .call => call levels
  | .primary => primary (expression levels) (block levels)

/-- The loop that grows an expression of a strength. -/
def growth (levels : Nat) : Strength → Nat → Expr → Parser Expr
  | .or => leftward Tier.or.join? (chain levels .and)
  | .and => leftward Tier.and.join? (chain levels .equality)
  | .equality => leftward Tier.equality.join? (chain levels .comparison)
  | .comparison => leftward Tier.comparison.join? (chain levels .term)
  | .term => leftward Tier.term.join? (chain levels .factor)
  | .factor => leftward Tier.factor.join? (unary levels)
  | .call => callRest (expression levels)
  | .assignment | .unary | .primary => fun _ e => pure e

theorem ofStrength_succ {s s' : Strength} (h : s.grows? = some s') (levels : Nat) :
    ofStrength (levels + 1) s = ofStrength levels s' >>= fun first =>
      perToken fun fuel => growth levels s fuel first := by
  cases s <;> cases h <;> rfl

theorem growth_tier (levels : Nat) (tier : Tier) :
    growth levels tier.strength =
      leftward tier.join? (ofStrength levels tier.operandStrength) := by
  cases tier <;> rfl

variable {deep : Prop}

/-- Where an expression stops, its loop does. -/
theorem growth_stops {s s' : Strength} (h : s.grows? = some s') {rest : List Token}
    (hs : s.Stops rest) (levels fuel : Nat) (e : Expr) :
    Runs deep (growth levels s (fuel + 1) e) [] rest e := by
  have hop : ∀ tier : Tier, tier.strength.Stops rest →
      Runs deep (growth levels tier.strength (fuel + 1) e) [] rest e := by
    intro tier ht
    rw [growth_tier]
    exact Leads.pass (Tier.join?_eq_none ht) (.refl _)
  cases s with
  | assignment | unary | primary => cases h
  | or => exact hop .or hs
  | and => exact hop .and hs
  | equality => exact hop .equality hs
  | comparison => exact hop .comparison hs
  | term => exact hop .term hs
  | factor => exact hop .factor hs
  | call =>
      exact Leads.passKind (hs.kind_ne rfl) (Leads.passKind (hs.kind_ne rfl) (.refl _))

/-- An expression is read where it stops, and grows where its parts stop. -/
structure ExpressionAccepted (deep : Prop) (s : Strength) (e : Expr) (ts : List Token) :
    Prop where
  runs : ∀ levels rest, Room deep (levels + s.margin) ts → s.Stops rest →
    Runs deep (ofStrength levels s) ts rest e
  reaches : ∀ s', s.grows? = some s' → ∀ levels rest, Room deep (levels + s'.margin) ts →
    s'.Stops rest → Reaches deep (ofStrength (levels + 1) s) (growth levels s) ts rest e

namespace ExpressionAccepted
variable {s s' : Strength} {e : Expr} {ts : List Token}

theorem of_reaches (hs : s.grows? = some s') (hn : ts ≠ [])
    (h : ∀ levels rest, Room deep (levels + s'.margin) ts → s'.Stops rest →
      Reaches deep (ofStrength (levels + 1) s) (growth levels s) ts rest e) :
    ExpressionAccepted deep s e ts where
  runs := by
    intro levels rest hroom hstop
    have hrank := Strength.rank_tighter (Strength.tighter_of_grows hs)
    have hpos := List.length_pos_iff.mpr hn
    cases levels with
    | zero =>
        have hmax : s.margin < 16 := by cases s <;> first | decide | cases hs
        have hdeep : deep := hroom (by omega)
        cases s <;> first | exact Leads.tooDeep hdeep | cases hs
    | succ levels =>
        refine (h levels rest (hroom.within ?_) (hstop.mono (by omega))).stop fun fuel =>
          growth_stops hs hstop levels fuel e
        unfold Strength.margin
        omega
  reaches := by
    intro s'' hs'' levels rest hroom hstop
    rw [hs] at hs''
    cases hs''
    exact h levels rest hroom hstop

/-- An operand is an expression of the next looser strength, if nothing goes on with it. -/
theorem tighter (hs : s.tighter? = some s') (ho : Opens s'.starts ts)
    (h : ExpressionAccepted deep s' e ts) : ExpressionAccepted deep s e ts := by
  have hrank := Strength.rank_tighter hs
  by_cases hg : s.grows? = some s'
  · refine of_reaches hg ho.ne_nil fun levels rest hroom hstop => ?_
    rw [ofStrength_succ hg]
    exact .start (h.runs levels rest hroom hstop)
  · have hpos := List.length_pos_iff.mpr ho.ne_nil
    refine ⟨fun levels rest hroom hstop => ?_, fun s'' hs'' => ?_⟩
    · cases s <;> cases hs <;> first | exact absurd rfl hg | skip
      · cases levels with
        | zero => exact Leads.tooDeep (hroom (by simp [Strength.margin, Strength.rank]; omega))
        | succ levels =>
            have hor := h.runs levels rest (hroom.within (by simp only [Strength.margin, Strength.rank]; omega))
              (hstop.mono (by omega))
            exact Leads.last hor (Leads.passKind (hstop.kind_ne rfl) (.refl _))
      · cases levels with
        | zero => exact Leads.tooDeep (hroom (by simp [Strength.margin, Strength.rank]; omega))
        | succ levels =>
            have hcall := h.runs levels rest
              (hroom.within (by simp only [Strength.margin, Strength.rank]; omega)) (hstop.mono (by omega))
            refine Leads.pass (fun t more ht => ?_) hcall
            have hbang := ho.kind_ne (k := .bang) rfl rest t more ht
            have hminus := ho.kind_ne (k := .minus) rfl rest t more ht
            cases hop : UnaryOp.ofToken? t with
            | none => rfl
            | some b =>
                obtain ⟨op, t'⟩ := b
                obtain ⟨-, ⟨-, hk⟩ | ⟨-, hk⟩⟩ := unary_ofToken hop
                · exact absurd hk hbang
                · exact absurd hk hminus
    · have := Strength.tighter_of_grows hs''
      rw [hs] at this
      cases this
      exact absurd hs'' hg

end ExpressionAccepted

/-- The reader of a kind of phrase takes the tokens of such a phrase. -/
def Accepts (deep : Prop) : Phrase → List Token → Prop
  | .expression s e, ts => ExpressionAccepted deep s e ts
  | .optional o, ts => ∀ levels kind stop rest, Room deep (levels + 6) ts → stop.kind = kind →
      kind = .semicolon ∨ kind = .rightParen →
      Runs deep (unlessNext kind (expression levels)) ts (stop :: rest) o
  | .arguments es, ts => ∀ levels fuel count close rest, Room deep (levels + 6) ts →
      close.kind = .rightParen → ts.length < fuel → count + es.length ≤ maxArguments →
      Runs deep (commaSeparated (expression levels) .tooManyArguments fuel count) ts
        (close :: rest) es
  | .function f, ts => ∀ levels label rest, Room deep (levels + 3) ts →
      Runs deep (functionRest (block levels) label f.name) ts rest f
  | .methods fs, ts => ∀ levels fuel last rest, Room deep (levels + 3) ts →
      last.kind = .rightBrace → ts.length < fuel →
      Runs deep (untilBrace (do
        let method ← namedFunction (block levels) .method
        return [method]) fuel) ts (last :: rest) fs
  | .variable s, ts => ∃ keyword mutability us, ts = keyword :: us ∧
      Mutability.ofToken? keyword = some mutability ∧
      ∀ levels rest, Room deep (levels + 6) ts →
        Runs deep (variableDeclaration (expression levels) mutability) us rest s
  | .initial i, ts => ∀ levels rest, Room deep (levels + 6) ts →
      Runs deep (forInitial (expression levels)) ts rest i
  | .statement dangling s, ts => ∀ levels rest, Room deep (levels + 5) ts →
      (dangling = true → NoElse rest) → Runs deep (statement levels) ts rest s
  | .declaration s, ts => ∀ levels rest, Room deep (levels + 4) ts → NoElse rest →
      Runs deep (declaration levels) ts rest [s]
  | .declarations ss, ts =>
      (∀ levels fuel last rest, Room deep (levels + 4) ts → last.kind = .rightBrace →
        ts.length < fuel → Runs deep (untilBrace (declaration levels) fuel) ts (last :: rest) ss) ∧
      (∀ levels fuel, Room deep (levels + 4) ts → ts.length < fuel →
        Runs deep (program (declaration levels) fuel) ts [] ss)

/-- The forms of statements that begin with a token of their own. -/
def keywordForms (expression : Parser Expr) (block : Parser (List Stmt))
    (statement : Parser Stmt) : List (TokenKind × (Token → Parser Stmt)) :=
  [(.for, fun _ => forStatement expression statement),
   (.if, fun _ => ifStatement expression statement),
   (.print, fun _ => printStatement expression),
   (.return, returnStatement expression),
   (.while, fun _ => whileStatement expression statement),
   (.break, keywordStatement .break .breakEnd),
   (.continue, keywordStatement .continue .continueEnd),
   (.leftBrace, fun _ => Stmt.block <$> block)]

theorem statementForms_eq (expression : Parser Expr) (block : Parser (List Stmt))
    (statement : Parser Stmt) :
    statementForms expression block statement =
      choose (expressionStatement expression) (keywordForms expression block statement) := by
  simp only [choose, keywordForms]
  unfold statementForms
  rfl

/-- No expression begins like one of these forms. -/
theorem keywordForms_closed {expression : Parser Expr} {block : Parser (List Stmt)}
    {statement : Parser Stmt} :
    ∀ f ∈ keywordForms expression block statement, TokenKind.startsExpression f.1 = false := by
  simp [keywordForms, TokenKind.startsExpression, TokenKind.startsOperand]

namespace Accepts
variable {s s' : Strength} {e e' : Expr} {t : Token} {ts us rest : List Token}

/-! ### Expressions -/

/-- An expression up to a token that goes on with none. -/
theorem expression (h : ExpressionAccepted deep .assignment e ts)
    (ho : Opens Strength.assignment.starts ts) {n : Nat} (hroom : Room deep (n + 6) ts)
    (ht : t.kind.continues? = none) (rest : List Token) :
    Runs deep (Parser.expression n) ts (t :: rest) e := by
  have hpos := List.length_pos_iff.mpr ho.ne_nil
  cases n with
  | zero => exact Leads.tooDeep (hroom (by omega))
  | succ n =>
      unfold Parser.expression
      exact h.runs n _ (hroom.within (by simp only [Strength.margin, Strength.rank]; omega))
        (.cons ht rest)

/-- A call or an operand, where it is the target of an assignment. -/
theorem target (ho : Opens Strength.call.starts ts) (h : ExpressionAccepted deep .call e ts) :
    ExpressionAccepted deep .or e ts := by
  have step : ∀ {s s' : Strength}, s.tighter? = some s' →
      Opens s'.starts ts ∧ ExpressionAccepted deep s' e ts →
      Opens s.starts ts ∧ ExpressionAccepted deep s e ts := fun hs h =>
    ⟨h.1.mono fun _ => Strength.starts_of_tighter hs, h.2.tighter hs h.1⟩
  have hunary := step (s := .unary) rfl ⟨ho, h⟩
  have hterm := step (s := .term) rfl (step (s := .factor) rfl hunary)
  have hequality := step (s := .equality) rfl (step (s := .comparison) rfl hterm)
  exact (step (s := .or) rfl (step (s := .and) rfl hequality)).2

/-- An assignment to a target that is read as `e`. -/
theorem assignment {e'' : Expr} (ho : Opens Strength.or.starts ts)
    (h : ExpressionAccepted deep .or e ts) (ht : t.kind = .equal)
    (h' : ExpressionAccepted deep .assignment e' us)
    (hto : assignTo e t e' = pure e'') :
    ExpressionAccepted deep .assignment e'' (ts ++ t :: us) where
  runs := by
    intro levels rest hroom hstop
    have hpos := List.length_pos_iff.mpr ho.ne_nil
    simp only [Room, Strength.margin, Strength.rank, List.length_append, List.length_cons]
      at hroom
    cases levels with
    | zero => exact Leads.tooDeep (hroom (by omega))
    | succ levels =>
        have hfirst := h.runs levels ((t :: us) ++ rest)
          (fun hd => hroom (by simp only [Strength.margin, Strength.rank] at hd; omega))
          (.before (by rw [ht]; rfl) (by decide) _)
        have hsecond := h'.runs levels rest
          (fun hd => hroom (by simp only [Strength.margin, Strength.rank] at hd; omega)) hstop
        refine Leads.bind hfirst (Leads.enterKind ht ?_)
        refine Leads.last hsecond ?_
        rw [hto]
        exact .refl _
  reaches := by
    intro s' hs'
    cases hs'

theorem operation {join : Expr → Expr → Expr} (hi : Infix t s join) (hs : s.tighter? = some s')
    (h : ExpressionAccepted deep s e ts) (ho : Opens s.starts ts)
    (h' : ExpressionAccepted deep s' e' us) :
    ExpressionAccepted deep s (join e e') (ts ++ t :: us) := by
  obtain ⟨tier, rfl, hjoin⟩ := hi.tier
  have hs' := tier.tighter?_strength
  rw [hs] at hs'
  cases hs'
  have hrank := Strength.rank_tighter hs
  refine .of_reaches tier.grows_strength (by simp) fun levels rest hroom hstop => ?_
  simp only [Room, List.length_append, List.length_cons] at hroom
  have hleft := h.reaches _ tier.grows_strength levels ((t :: us) ++ rest)
    (fun hd => hroom (by omega)) (.before hi.continues (by omega) _)
  have hright := h'.runs levels rest (fun hd => hroom (by omega)) hstop
  refine hleft.round (by simp) fun fuel => ?_
  rw [growth_tier]
  refine Leads.enter hjoin ?_
  exact Leads.last hright (.refl _)

theorem unary {op : UnaryOp} (ht : UnaryOp.ofToken? t = some (op, t))
    (h : ExpressionAccepted deep .unary e ts) :
    ExpressionAccepted deep .unary (.unary op t e) (t :: ts) where
  runs := by
    intro levels rest hroom hstop
    simp only [Room, List.length_cons] at hroom
    cases levels with
    | zero =>
        exact Leads.tooDeep (hroom (by simp only [Strength.margin, Strength.rank]; omega))
    | succ levels =>
        have hoperand := h.runs levels rest (fun hd => hroom (by omega)) hstop
        refine Leads.enter ht ?_
        exact Leads.map hoperand
  reaches := by
    intro s' hs'
    cases hs'

/-- One round of calls and property reads. -/
theorem callRound (h : ExpressionAccepted deep .call e ts)
    (ho : Opens Strength.call.starts ts) (hu : us ≠ [])
    (hcontinue : ∃ t more, us = t :: more ∧ t.kind.continues? = some .call)
    (hround : ∀ levels fuel rest, Room deep (levels + 16) us →
      Leads deep (callRest (Parser.expression levels) (fuel + 1) e) us rest
        (callRest (Parser.expression levels) fuel e')) :
    ExpressionAccepted deep .call e' (ts ++ us) := by
  have hgrows : Strength.call.grows? = some .primary := rfl
  refine .of_reaches hgrows (by simp [hu]) fun levels rest hroom hstop => ?_
  obtain ⟨t, more, rfl, hk⟩ := hcontinue
  have hpos := List.length_pos_iff.mpr ho.ne_nil
  have hleft := h.reaches _ hgrows levels ((t :: more) ++ rest)
    (hroom.within (by simp only [List.length_append, List.length_cons]; omega))
    (.before hk (by decide) _)
  exact hleft.round hu fun fuel => hround levels fuel rest
    (hroom.within (by
      simp only [Strength.margin, Strength.rank, List.length_append, List.length_cons]; omega))

theorem call {start paren : Token} (h : ExpressionAccepted deep .call e ts)
    (ho : Opens Strength.call.starts ts) (hs : start.kind = .leftParen)
    (hp : paren.kind = .rightParen) :
    ExpressionAccepted deep .call (.call e paren []) (ts ++ [start, paren]) := by
  refine callRound h ho (by simp) ⟨_, _, rfl, by rw [hs]; rfl⟩ fun levels fuel rest _ => ?_
  refine Leads.enterKind hs ?_
  have hcheck : Runs deep (Parser.check .rightParen) [] ([paren] ++ rest) true :=
    .check rfl (by simp [hp])
  exact Leads.look hcheck (Leads.must hp (.refl _))

theorem callWith {start paren : Token} {es : List Expr} (h : ExpressionAccepted deep .call e ts)
    (ho : Opens Strength.call.starts ts) (hs : start.kind = .leftParen)
    (hargs : Accepts deep (.arguments es) us) (hargsOpen : Opens TokenKind.startsExpression us)
    (hcount : es.length ≤ 255) (hp : paren.kind = .rightParen) :
    ExpressionAccepted deep .call (.call e paren es) (ts ++ start :: (us ++ [paren])) := by
  refine callRound h ho (by simp) ⟨_, _, rfl, by rw [hs]; rfl⟩ fun levels fuel rest hroom => ?_
  refine Leads.enterKind hs ?_
  have hcheck : Runs deep (Parser.check .rightParen) [] ((us ++ [paren]) ++ rest) false := by
    obtain ⟨t, more, rfl, hk, -⟩ := hargsOpen
    refine .check rfl (decide_eq_false fun he => ?_)
    rw [he] at hk
    cases hk
  have hrun : Runs deep (Parser.perToken fun fuel =>
      commaSeparated (Parser.expression levels) .tooManyArguments fuel 0) us (paren :: rest) es :=
    .perToken fun fuel hfuel => hargs levels fuel 0 paren rest
      (hroom.within (by simp only [List.length_append, List.length_cons]; omega)) hp hfuel
      (by simpa [maxArguments] using hcount)
  refine Leads.look hcheck ?_
  exact Leads.bind (v := [paren]) hrun (Leads.must hp (.refl _))

theorem get {dot name : Token} (h : ExpressionAccepted deep .call e ts)
    (ho : Opens Strength.call.starts ts) (hd : dot.kind = .dot) (hn : name.kind = .identifier) :
    ExpressionAccepted deep .call (.get e name) (ts ++ [dot, name]) := by
  refine callRound h ho (by simp) ⟨_, _, rfl, by rw [hd]; rfl⟩ fun levels fuel rest _ => ?_
  refine Leads.passKind (kind_ne_of_front hd (by decide)) ?_
  exact Leads.enterKind hd (Leads.must hn (.refl _))

/-- What no operator splits is read whatever comes next. -/
theorem primary (h : ∀ levels rest, Room deep (levels + 16) ts →
    Runs deep (Parser.primary (Parser.expression levels) (Parser.block levels)) ts rest e) :
    ExpressionAccepted deep .primary e ts where
  runs := fun levels rest hroom _ => h levels rest hroom
  reaches := by
    intro s' hs'
    cases hs'

theorem atom (ha : Atom t e) : ExpressionAccepted deep .primary e [t] := by
  refine primary fun levels rest _ => ?_
  have hliteral : ∀ value, Literal.ofToken? t = some value →
      Runs deep (Parser.primary (Parser.expression levels) (Parser.block levels)) [t] rest
        (.literal value) := fun value hv => Leads.enter hv (.refl _)
  cases ha with
  | «false» hk | «true» hk | nil hk | number hk | string hk =>
      exact hliteral _ (by simp [Literal.ofToken?, hk])
  | name hk =>
      refine Leads.pass (none_of_front (by simp [Literal.ofToken?, hk])) ?_
      refine Leads.passKind (kind_ne_of_front hk (by decide)) ?_
      refine Leads.passKind (kind_ne_of_front hk (by decide)) ?_
      exact Leads.enterKind hk (.refl _)
  | this hk =>
      refine Leads.pass (none_of_front (by simp [Literal.ofToken?, hk])) ?_
      refine Leads.passKind (kind_ne_of_front hk (by decide)) ?_
      exact Leads.enterKind hk (.refl _)

theorem super {keyword dot method : Token} (hk : keyword.kind = .super) (hd : dot.kind = .dot)
    (hm : method.kind = .identifier) :
    ExpressionAccepted deep .primary (.super { name := keyword } method)
      [keyword, dot, method] := by
  refine primary fun levels rest _ => ?_
  refine Leads.pass (none_of_front (by simp [Literal.ofToken?, hk])) ?_
  exact Leads.enterKind hk (Leads.must hd (Leads.must hm (.refl _)))

theorem lambda {keyword : Token} {ps : List Token} {body : List Stmt}
    (hk : keyword.kind = .lambda ∨ keyword.kind = .fun ∨ keyword.kind = .define)
    (h : Accepts deep (.function (.mk none ps body)) ts) :
    ExpressionAccepted deep .primary (.lambda (.mk none ps body)) (keyword :: ts) := by
  refine primary fun levels rest hroom => ?_
  have hbody := h levels .lambda rest
    (hroom.within (by simp only [List.length_cons]; omega))
  have hne : ∀ kind : TokenKind, kind ≠ .lambda → kind ≠ .fun → kind ≠ .define →
      ∀ t more, (keyword :: ts) ++ rest = t :: more → t.kind ≠ kind := by
    rcases hk with h | h | h <;> exact fun kind h₁ h₂ h₃ => kind_ne_of_front h (Ne.symm ‹_›)
  refine Leads.pass (none_of_front ?_) ?_
  · rcases hk with h | h | h <;> simp [Literal.ofToken?, h]
  refine Leads.passKind (hne _ (by decide) (by decide) (by decide)) ?_
  refine Leads.passKind (hne _ (by decide) (by decide) (by decide)) ?_
  refine Leads.passKind (hne _ (by decide) (by decide) (by decide)) ?_
  refine Leads.enter (b := keyword) (if_pos hk) ?_
  exact Leads.map hbody

theorem grouping {start close : Token} (hs : start.kind = .leftParen)
    (h : ExpressionAccepted deep .assignment e ts) (ho : Opens Strength.assignment.starts ts)
    (hc : close.kind = .rightParen) :
    ExpressionAccepted deep .primary (.grouping e) (start :: (ts ++ [close])) := by
  refine primary fun levels rest hroom => ?_
  have hinner := expression h ho (n := levels)
    (hroom.within (by simp only [List.length_cons, List.length_append]; omega))
    (t := close) (by rw [hc]; rfl) rest
  refine Leads.pass (none_of_front (by simp [Literal.ofToken?, hs])) ?_
  refine Leads.passKind (kind_ne_of_front hs (by decide)) ?_
  refine Leads.passKind (kind_ne_of_front hs (by decide)) ?_
  refine Leads.passKind (kind_ne_of_front hs (by decide)) ?_
  refine Leads.pass (none_of_front (if_neg (by simp [hs]))) ?_
  refine Leads.enterKind hs ?_
  exact Leads.bind (v := [close]) hinner (Leads.must hc (.refl _))

theorem optional (h : ExpressionAccepted deep .assignment e ts)
    (ho : Opens Strength.assignment.starts ts) : Accepts deep (.optional (some e)) ts := by
  intro levels kind stop rest hroom hstop hkind
  have hnot : kind.continues? = none ∧ kind.startsExpression = false := by
    rcases hkind with rfl | rfl <;> exact ⟨rfl, rfl⟩
  have hcheck : Runs deep (Parser.check kind) [] (ts ++ (stop :: rest)) false := by
    obtain ⟨t, more, rfl, hk, -⟩ := ho
    refine .check rfl (decide_eq_false fun he => ?_)
    have hfirst := Strength.starts_expression hk
    rw [he, hnot.2] at hfirst
    cases hfirst
  have hexpression := expression h ho hroom (t := stop) (by rw [hstop]; exact hnot.1) rest
  exact Leads.look hcheck (Leads.map hexpression)

theorem optionalNone : Accepts deep (.optional none) [] := by
  intro levels kind stop rest _ hstop _
  have hcheck : Runs deep (Parser.check kind) [] (stop :: rest) true :=
    .check rfl (by simp [hstop])
  exact Leads.look hcheck (.refl _)

/-- A round of a list of items between commas, below the greatest number of items. -/
theorem commaRound {α : Type} {item : Parser α} {surplus : StaticError} {fuel count : Nat} {u v : List Token}
    {a : α} {as : List α} (hitem : Runs deep item u (v ++ rest) a)
    (hcount : count + 1 ≤ maxArguments)
    (hmore : Runs deep (otherItems item surplus fuel (count + 1) a) v rest as) :
    Runs deep (commaSeparated item surplus (fuel + 1) count) (u ++ v) rest as := by
  have hlt : ¬ maxArguments ≤ count := by omega
  rw [commaSeparated_succ, if_neg hlt]
  exact Leads.bind hitem hmore

theorem argument (h : ExpressionAccepted deep .assignment e ts)
    (ho : Opens Strength.assignment.starts ts) : Accepts deep (.arguments [e]) ts := by
  intro levels fuel count close rest hroom hclose hfuel hcount
  obtain ⟨fuel, rfl⟩ : ∃ n, fuel = n + 1 := ⟨fuel - 1, by omega⟩
  have hexpression := expression h ho hroom (t := close) (by rw [hclose]; rfl) rest
  rw [← List.append_nil ts]
  refine commaRound (v := []) hexpression hcount ?_
  exact Leads.passKind (kind_ne_of_front (u := []) hclose (by decide)) (.refl _)

theorem argumentMore {comma : Token} {es : List Expr} (h : ExpressionAccepted deep .assignment e ts)
    (ho : Opens Strength.assignment.starts ts) (hc : comma.kind = .comma)
    (hes : Accepts deep (.arguments es) us) : Accepts deep (.arguments (e :: es)) (ts ++ comma :: us) := by
  intro levels fuel count close rest hroom hclose hfuel hcount
  simp only [List.length_append, List.length_cons] at hfuel hcount
  obtain ⟨fuel, rfl⟩ : ∃ n, fuel = n + 1 := ⟨fuel - 1, by omega⟩
  have hexpression := expression h ho (n := levels)
    (hroom.within (by simp only [List.length_append, List.length_cons]; omega))
    (t := comma) (by rw [hc]; rfl) (us ++ close :: rest)
  have hothers := hes levels fuel (count + 1) close rest
    (hroom.within (by simp only [List.length_append, List.length_cons]; omega)) hclose
    (by omega) (by omega)
  refine commaRound hexpression (by omega) (Leads.enterKind hc ?_)
  exact Leads.map hothers

/-! ### Functions, classes and variables -/

theorem names {ps : List Token} (h : Names ts ps) {fuel count : Nat} {close : Token}
    {rest : List Token} (hclose : close.kind = .rightParen) (hfuel : ts.length < fuel)
    (hcount : count + ps.length ≤ maxArguments) :
    Runs deep (commaSeparated (Parser.expect .identifier .parameterName) .tooManyParameters fuel
      count) ts (close :: rest) ps := by
  induction h generalizing fuel count with
  | one ht =>
      obtain ⟨fuel, rfl⟩ : ∃ n, fuel = n + 1 := ⟨fuel - 1, by omega⟩
      refine commaRound (v := []) (.expect _ ht) hcount ?_
      exact Leads.passKind (kind_ne_of_front (u := []) hclose (by decide)) (.refl _)
  | more ht hc _ ih =>
      simp only [List.length_cons] at hfuel hcount
      obtain ⟨fuel, rfl⟩ : ∃ n, fuel = n + 1 := ⟨fuel - 1, by omega⟩
      refine commaRound (.expect _ ht) (by omega) (Leads.enterKind hc ?_)
      exact Leads.map (ih (by omega) (by omega))

theorem block {body : List Stmt} {last : Token} {n : Nat}
    (h : Accepts deep (.declarations body) ts) (hl : last.kind = .rightBrace)
    (hroom : Room deep (n + 3) (ts ++ [last])) (rest : List Token) :
    Runs deep (Parser.block n) (ts ++ [last]) rest body := by
  simp only [Room, List.length_append, List.length_singleton] at hroom
  cases n with
  | zero => exact Leads.tooDeep (hroom (by omega))
  | succ n =>
      have hbody : Runs deep (Parser.perToken (untilBrace (Parser.declaration n))) ts
          (last :: rest) body :=
        .perToken fun fuel hfuel =>
          h.1 n fuel last rest (fun hd => hroom (by omega)) hl hfuel
      unfold Parser.block
      exact Leads.bind hbody (Leads.must hl (.refl _))

theorem function {start close brace last : Token} {name : Option Token} {params ps : List Token}
    {body : List Stmt} {bs : List Token} (hs : start.kind = .leftParen) (hps : Parameters ps params)
    (hc : close.kind = .rightParen) (hb : brace.kind = .leftBrace)
    (hbody : Accepts deep (.declarations body) bs) (hl : last.kind = .rightBrace) :
    Accepts deep (.function (.mk name params body))
      (start :: (ps ++ close :: brace :: (bs ++ [last]))) := by
  intro levels label rest hroom
  have hblock := block (n := levels) hbody hl
    (hroom.within (by simp only [List.length_cons, List.length_append]; omega)) rest
  have htail : Runs deep (Parser.expect .rightParen .parametersEnd >>= fun _ =>
      Parser.expect .leftBrace (.functionBodyStart label) >>= fun _ =>
        Parser.block levels >>= fun body => Pure.pure (FunctionDecl.mk name params body))
      (close :: brace :: (bs ++ [last])) rest (.mk name params body) :=
    Leads.must hc (Leads.must hb (Leads.map hblock))
  unfold functionRest
  refine Leads.must hs ?_
  cases hps with
  | none =>
      have hcheck : Runs deep (Parser.check .rightParen) []
          ((close :: brace :: (bs ++ [last])) ++ rest) true := .check rfl (by simp [hc])
      exact Leads.look hcheck htail
  | some hnames hcount =>
      have hcheck : Runs deep (Parser.check .rightParen) []
          ((ps ++ close :: brace :: (bs ++ [last])) ++ rest) false := by
        cases hnames with
        | one ht | more ht _ _ => exact .check rfl (by rw [ht]; rfl)
      have hparams : Runs deep (Parser.perToken fun fuel =>
          commaSeparated (Parser.expect .identifier .parameterName) .tooManyParameters fuel 0) ps
          ((close :: brace :: (bs ++ [last])) ++ rest) params :=
        .perToken fun fuel hfuel => names hnames hc hfuel (by simpa [maxArguments] using hcount)
      exact Leads.look hcheck (Leads.bind hparams htail)

theorem namedFunction {name : Token} {params : List Token} {body : List Stmt} {n : Nat}
    (hn : name.kind = .identifier) (h : Accepts deep (.function (.mk (some name) params body)) ts)
    (hroom : Room deep (n + 3) ts) (label : FunctionLabel) (rest : List Token) :
    Runs deep (Parser.namedFunction (Parser.block n) label) (name :: ts) rest
      (.mk (some name) params body) :=
  Leads.must hn (h n label rest hroom)

/-- A round of a list of items up to a brace. -/
theorem braceRound {α : Type} {item : Parser (List α)} {fuel : Nat} {u v : List Token} {a b : List α}
    (hn : ∃ t more, u = t :: more ∧ t.kind ≠ .rightBrace)
    (hitem : Runs deep item u (v ++ rest) a)
    (hmore : Runs deep (untilBrace item fuel) v rest b) :
    Runs deep (untilBrace item (fuel + 1)) (u ++ v) rest (a ++ b) := by
  obtain ⟨t, more, rfl, hk⟩ := hn
  have hround : Runs deep (item >>= fun first => untilBrace item fuel >>= fun others =>
      Pure.pure (first ++ others)) ((t :: more) ++ v) rest (a ++ b) :=
    Leads.bind hitem (Leads.map hmore)
  intro c hc hs
  have h := hround c hc hs
  have heq : untilBrace item (fuel + 1) c = (item >>= fun first =>
      untilBrace item fuel >>= fun others => Pure.pure (first ++ others)) c := by
    rw [untilBrace]
    rw [Watched.get_bind]
    simp only [hc, List.cons_append, hk, if_false]
  rw [heq]
  exact h

/-- The brace ends the list. -/
theorem braceEnd {α : Type} {item : Parser (List α)} {fuel : Nat} {last : Token}
    (hl : last.kind = .rightBrace) (rest : List Token) :
    Runs deep (untilBrace item (fuel + 1)) [] (last :: rest) [] := by
  intro c hc _
  have hc' : c.rest = last :: rest := hc
  refine .inl ?_
  unfold untilBrace
  rw [Watched.get_bind]
  simp only [hc', hl, if_true]
  rw [Cursor.eq_behind hc']

theorem methodsNil : Accepts deep (.methods []) [] := by
  intro levels fuel last rest _ hl hfuel
  obtain ⟨fuel, rfl⟩ : ∃ n, fuel = n + 1 := ⟨fuel - 1, by simp at hfuel; omega⟩
  exact braceEnd hl rest

theorem methodsCons {name : Token} {params : List Token} {body : List Stmt}
    {fs : List FunctionDecl} (hn : name.kind = .identifier)
    (h : Accepts deep (.function (.mk (some name) params body)) ts)
    (hfs : Accepts deep (.methods fs) us) :
    Accepts deep (.methods (.mk (some name) params body :: fs)) (name :: (ts ++ us)) := by
  intro levels fuel last rest hroom hl hfuel
  simp only [List.length_cons, List.length_append] at hfuel
  obtain ⟨fuel, rfl⟩ : ∃ n, fuel = n + 1 := ⟨fuel - 1, by omega⟩
  have hfirst := namedFunction (n := levels) hn h
    (hroom.within (by simp only [List.length_cons, List.length_append]; omega)) .method
    (us ++ last :: rest)
  have hothers := hfs levels fuel last rest
    (hroom.within (by simp only [List.length_cons, List.length_append]; omega)) hl (by omega)
  exact braceRound (u := name :: ts) ⟨name, ts, rfl, by rw [hn]; decide⟩ (Leads.map hfirst) hothers

theorem variableEnd {mutability : Mutability} {name semicolon : Token} {initial : Option Expr}
    (hs : semicolon.kind = .semicolon) (rest : List Token) :
    Runs deep (Parser.expect .semicolon .variableEnd >>= fun _ =>
      Pure.pure (Stmt.var mutability name initial)) [semicolon] rest
      (.var mutability name initial) :=
  Leads.must hs (.refl _)

theorem initialized {mutability : Mutability} {name equals semicolon : Token}
    (hn : name.kind = .identifier) (heq : equals.kind = .equal)
    (h : ExpressionAccepted deep .assignment e ts) (ho : Opens Strength.assignment.starts ts)
    (hs : semicolon.kind = .semicolon) {levels : Nat} (hroom : Room deep (levels + 6) ts)
    (rest : List Token) :
    Runs deep (variableDeclaration (Parser.expression levels) mutability)
      (name :: equals :: (ts ++ [semicolon])) rest (.var mutability name (some e)) := by
  have hexpression := expression h ho hroom (t := semicolon) (by rw [hs]; rfl) rest
  refine Leads.must hn (Leads.enterKind heq ?_)
  exact Leads.bind (v := [semicolon]) (Leads.map hexpression) (variableEnd hs rest)

theorem uninitialized {keyword name semicolon : Token} (hk : keyword.kind = .var)
    (hn : name.kind = .identifier) (hs : semicolon.kind = .semicolon) :
    Accepts deep (.variable (.var .variable name none)) [keyword, name, semicolon] := by
  refine ⟨keyword, .variable, _, rfl, by simp [Mutability.ofToken?, hk], fun levels rest _ => ?_⟩
  refine Leads.must hn (Leads.passKind (kind_ne_of_front hs (by decide)) ?_)
  exact variableEnd hs rest

theorem variableWith {mutability : Mutability} {keyword name equals semicolon : Token}
    (hk : Mutability.ofToken? keyword = some mutability) (hn : name.kind = .identifier)
    (heq : equals.kind = .equal) (h : ExpressionAccepted deep .assignment e ts)
    (ho : Opens Strength.assignment.starts ts) (hs : semicolon.kind = .semicolon) :
    Accepts deep (.variable (.var mutability name (some e)))
      (keyword :: name :: equals :: (ts ++ [semicolon])) := by
  refine ⟨keyword, mutability, _, rfl, hk, fun levels rest hroom => ?_⟩
  refine initialized hn heq h ho hs (hroom.within ?_) rest
  simp only [List.length_cons, List.length_append]
  omega

theorem initialNone {semicolon : Token} (hs : semicolon.kind = .semicolon) :
    Accepts deep (.initial none) [semicolon] := fun _ _ _ => Leads.enterKind hs (.refl _)

theorem initialVariable {s : Stmt} (ho : ∃ t more, ts = t :: more ∧ (t.kind = .var ∨ t.kind = .const))
    (h : Accepts deep (.variable s) ts) : Accepts deep (.initial (some s)) ts := by
  intro levels rest hroom
  obtain ⟨keyword, mutability, us, rfl, hk, h⟩ := h
  have hne : keyword.kind ≠ .semicolon := by
    obtain ⟨t, more, ht, h | h⟩ := ho <;> cases ht <;> rw [h] <;> decide
  refine Leads.passKind (kind_ne_of_front rfl hne) ?_
  exact Leads.enter hk (Leads.map (h levels rest hroom))

theorem expressionStatement {semicolon : Token} (h : ExpressionAccepted deep .assignment e ts)
    (ho : Opens Strength.assignment.starts ts) (hs : semicolon.kind = .semicolon) {n : Nat}
    (hroom : Room deep (n + 6) ts) (rest : List Token) :
    Runs deep (Parser.expressionStatement (Parser.expression n)) (ts ++ [semicolon]) rest
      (.expression e) :=
  Leads.bind (expression h ho hroom (by rw [hs]; rfl) rest) (Leads.must hs (.refl _))

/-- An expression or statement begins no variable. -/
theorem ofToken?_eq_none {kinds : TokenKind → Bool} (ho : Opens kinds ts)
    (hk : kinds .var = false ∧ kinds .const = false) (rest : List Token) (t : Token)
    (more : List Token) (ht : ts ++ rest = t :: more) : Mutability.ofToken? t = none := by
  cases hm : Mutability.ofToken? t with
  | none => rfl
  | some m =>
      rcases Reads.mutability_ofToken hm with ⟨-, h⟩ | ⟨-, h⟩
      · exact absurd h (ho.kind_ne hk.1 rest t more ht)
      · exact absurd h (ho.kind_ne hk.2 rest t more ht)

theorem initialExpression {semicolon : Token} (h : ExpressionAccepted deep .assignment e ts)
    (ho : Opens Strength.assignment.starts ts) (hs : semicolon.kind = .semicolon) :
    Accepts deep (.initial (some (.expression e))) (ts ++ [semicolon]) := by
  intro levels rest hroom
  have hopens := (ho.mono fun _ => Strength.starts_expression).append [semicolon]
  have hroom' : Room deep (levels + 6) ts :=
    hroom.within (by simp only [List.length_append]; omega)
  refine Leads.passKind (hopens.kind_ne rfl rest) ?_
  refine Leads.pass (ofToken?_eq_none hopens ⟨rfl, rfl⟩ rest) ?_
  exact Leads.map (expressionStatement h ho hs hroom' rest)

theorem importDeclaration {keyword name semicolon : Token} {as : Option Token}
    (hn : name.kind = .identifier ∨ name.kind = .string) (ha : Alias ts as)
    (hs : semicolon.kind = .semicolon) (rest : List Token) :
    Runs deep (Parser.importDeclaration keyword) (name :: (ts ++ [semicolon])) rest
      (.importModule keyword name as) := by
  unfold Parser.importDeclaration
  refine Leads.enter (b := name) (if_pos hn) ?_
  cases ha with
  | none =>
      refine Leads.passKind (kind_ne_of_front hs (by decide)) ?_
      exact Leads.must hs (.refl _)
  | some hm hn =>
      refine Leads.enterKind hm ?_
      exact Leads.bind (u := [_]) (v := [semicolon]) (Leads.map (.expect _ hn))
        (Leads.must hs (.refl _))

theorem classDeclaration {name brace last : Token} {parent : Option NameUse}
    {fs : List FunctionDecl} {hs : List Token} {levels : Nat} (hn : name.kind = .identifier)
    (hh : Heritage hs parent) (hb : brace.kind = .leftBrace) (h : Accepts deep (.methods fs) ts)
    (hl : last.kind = .rightBrace) (hroom : Room deep (levels + 3) ts) (rest : List Token) :
    Runs deep (Parser.classDeclaration (Parser.block levels))
      (name :: (hs ++ brace :: (ts ++ [last]))) rest (.class name parent fs) := by
  unfold Parser.classDeclaration
  have hparent : Runs deep superclassClause hs ((brace :: (ts ++ [last])) ++ rest) parent := by
    unfold superclassClause
    cases hh with
    | none =>
        refine Leads.pass (u := []) (none_of_front (if_neg ?_)) (.refl _)
        simp [hb]
    | some hm hn => exact Leads.enter (if_pos hm) (Leads.must hn (.refl _))
  have hmethods := Leads.perToken fun fuel hfuel => h levels fuel last rest hroom hl hfuel
  refine Leads.must hn (Leads.bind hparent (Leads.must hb ?_))
  exact Leads.bind (v := [last]) hmethods (Leads.must hl (.refl _))

/-! ### Statements -/

theorem forLoop {start semicolon close : Token} {i : Option Stmt} {c a : Option Expr} {s : Stmt}
    {dangling : Bool} {is cs as : List Token} {levels : Nat} (hst : start.kind = .leftParen)
    (hi : Accepts deep (.initial i) is) (hc : Accepts deep (.optional c) cs)
    (hsemi : semicolon.kind = .semicolon) (ha : Accepts deep (.optional a) as)
    (hcl : close.kind = .rightParen) (hs : Accepts deep (.statement dangling s) ts)
    (hroom : Room deep (levels + 6)
      (start :: (is ++ (cs ++ semicolon :: (as ++ close :: ts)))))
    (hfree : dangling = true → NoElse rest) :
    Runs deep (Parser.forStatement (Parser.expression levels) (Parser.statement levels))
      (start :: (is ++ (cs ++ semicolon :: (as ++ close :: ts)))) rest
      (Parser.forLoop i c a s) := by
  simp only [Room, List.length_cons, List.length_append] at hroom
  have hinitial := hi levels ((cs ++ semicolon :: (as ++ close :: ts)) ++ rest)
    fun hd => hroom (by omega)
  have hcondition := hc levels .semicolon semicolon ((as ++ close :: ts) ++ rest)
    (fun hd => hroom (by omega)) hsemi (.inl rfl)
  have hincrement := ha levels .rightParen close (ts ++ rest)
    (fun hd => hroom (by omega)) hcl (.inr rfl)
  have hbody := hs levels rest (fun hd => hroom (by omega)) hfree
  unfold Parser.forStatement
  refine Leads.must hst (Leads.bind hinitial ?_)
  refine Leads.bind (v := semicolon :: (as ++ close :: ts)) hcondition (Leads.must hsemi ?_)
  refine Leads.bind (v := close :: ts) hincrement (Leads.must hcl ?_)
  exact Leads.map hbody

/-- A statement is read at one level more than its form. -/
theorem form {s : Stmt} {dangling : Bool} (hn : ts ≠ [])
    (h : ∀ levels rest, Room deep (levels + 6) ts → (dangling = true → NoElse rest) →
      Runs deep (statementForms (Parser.expression levels) (Parser.block levels)
        (Parser.statement levels)) ts rest s) : Accepts deep (.statement dangling s) ts := by
  intro levels rest hroom hfree
  have hpos := List.length_pos_iff.mpr hn
  cases levels with
  | zero => exact Leads.tooDeep (hroom (by omega))
  | succ levels => exact h levels rest (hroom.within (by omega)) hfree

/-- A statement that begins with a token of its own is read by the form of this token. -/
theorem keywordForm {keyword : Token} {kind : TokenKind} {form : Nat → Token → Parser Stmt}
    {s : Stmt} {dangling : Bool} (hk : keyword.kind = kind)
    (hf : ∀ levels, (keywordForms (Parser.expression levels) (Parser.block levels)
      (Parser.statement levels)).find? (fun f => f.1 = kind) = some (kind, form levels))
    (h : ∀ levels rest, Room deep (levels + 6) (keyword :: ts) → (dangling = true → NoElse rest) →
      Runs deep (form levels keyword) ts rest s) :
    Accepts deep (.statement dangling s) (keyword :: ts) := by
  subst hk
  refine Accepts.form (List.cons_ne_nil _ _) fun levels rest hroom hfree => ?_
  rw [statementForms_eq]
  exact Leads.choose (hf levels) (h levels rest hroom hfree)

theorem print {keyword semicolon : Token} (hk : keyword.kind = .print)
    (h : ExpressionAccepted deep .assignment e ts) (ho : Opens Strength.assignment.starts ts)
    (hs : semicolon.kind = .semicolon) :
    Accepts deep (.statement false (.print e)) (keyword :: (ts ++ [semicolon])) := by
  refine keywordForm hk (fun _ => rfl) fun levels rest hroom _ => ?_
  have hexpression := expression h ho (n := levels)
    (hroom.within (by simp only [List.length_cons, List.length_append]; omega))
    (t := semicolon) (by rw [hs]; rfl) rest
  exact Leads.bind (v := [semicolon]) hexpression (Leads.must hs (.refl _))

theorem returning {keyword semicolon : Token} {o : Option Expr} (hk : keyword.kind = .return)
    (h : Accepts deep (.optional o) ts) (hs : semicolon.kind = .semicolon) :
    Accepts deep (.statement false (.return keyword o)) (keyword :: (ts ++ [semicolon])) := by
  refine keywordForm hk (fun _ => rfl) fun levels rest hroom _ => ?_
  have hvalue := h levels .semicolon semicolon rest
    (hroom.within (by simp only [List.length_cons, List.length_append]; omega)) hs (.inl rfl)
  exact Leads.bind (v := [semicolon]) hvalue (Leads.must hs (.refl _))

theorem whileLoop {keyword start close : Token} {s : Stmt} {dangling : Bool} {cs : List Token}
    (hk : keyword.kind = .while) (hst : start.kind = .leftParen)
    (h : ExpressionAccepted deep .assignment e cs) (ho : Opens Strength.assignment.starts cs)
    (hcl : close.kind = .rightParen) (hs : Accepts deep (.statement dangling s) ts) :
    Accepts deep (.statement dangling (.while e s none))
      (keyword :: start :: (cs ++ close :: ts)) := by
  refine keywordForm hk (fun _ => rfl) fun levels rest hroom hfree => ?_
  simp only [Room, List.length_cons, List.length_append] at hroom
  have hcondition := expression h ho (n := levels) (fun hd => hroom (by omega))
    (t := close) (by rw [hcl]; rfl) (ts ++ rest)
  have hbody := hs levels rest (fun hd => hroom (by omega)) hfree
  refine Leads.must hst ?_
  exact Leads.bind (v := close :: ts) hcondition (Leads.must hcl (Leads.map hbody))

theorem breaking {keyword semicolon : Token} (hk : keyword.kind = .break)
    (hs : semicolon.kind = .semicolon) :
    Accepts deep (.statement false (.break keyword)) [keyword, semicolon] :=
  keywordForm hk (fun _ => rfl) fun _ _ _ _ => Leads.must hs (.refl _)

theorem continuing {keyword semicolon : Token} (hk : keyword.kind = .continue)
    (hs : semicolon.kind = .semicolon) :
    Accepts deep (.statement false (.continue keyword)) [keyword, semicolon] :=
  keywordForm hk (fun _ => rfl) fun _ _ _ _ => Leads.must hs (.refl _)

theorem blockStatement {brace last : Token} {body : List Stmt} (hb : brace.kind = .leftBrace)
    (h : Accepts deep (.declarations body) ts) (hl : last.kind = .rightBrace) :
    Accepts deep (.statement false (.block body)) (brace :: (ts ++ [last])) := by
  refine keywordForm hb (fun _ => rfl) fun levels rest hroom _ => ?_
  exact Leads.map (block h hl (n := levels)
    (hroom.within (by simp only [List.length_cons, List.length_append]; omega)) rest)

theorem simple {semicolon : Token} (h : ExpressionAccepted deep .assignment e ts)
    (ho : Opens Strength.assignment.starts ts) (hs : semicolon.kind = .semicolon) :
    Accepts deep (.statement false (.expression e)) (ts ++ [semicolon]) := by
  refine form (by simp) fun levels rest hroom _ => ?_
  have hopens := (ho.mono fun _ => Strength.starts_expression).append [semicolon]
  have hstatement := expressionStatement h ho hs (n := levels)
    (hroom.within (by simp only [List.length_append]; omega)) rest
  rw [statementForms_eq]
  refine Leads.chooseOther (fun f hf => hopens.kind_ne ?_ rest) hstatement
  exact keywordForms_closed f hf

/-- A conditional up to its first branch; what follows may be an `else`. -/
theorem ifStatement {start close : Token} {s s'' : Stmt} {dangling : Bool} {cs : List Token}
    {levels : Nat} (hst : start.kind = .leftParen)
    (h : ExpressionAccepted deep .assignment e cs) (ho : Opens Strength.assignment.starts cs)
    (hcl : close.kind = .rightParen) (hs : Accepts deep (.statement dangling s) ts)
    (hroom : Room deep (levels + 6) (start :: (cs ++ close :: (ts ++ us))))
    (hfree : dangling = true → NoElse (us ++ rest))
    (helse : Runs deep (Parser.take? .else >>= fun o =>
      match o with
      | some _ => (some <$> Parser.statement levels) >>= fun second =>
          Pure.pure (Stmt.if e s second)
      | none => Pure.pure (Stmt.if e s none)) us rest s'') :
    Runs deep (Parser.ifStatement (Parser.expression levels) (Parser.statement levels))
      (start :: (cs ++ close :: (ts ++ us))) rest s'' := by
  simp only [Room, List.length_cons, List.length_append] at hroom
  have hcondition := expression h ho (n := levels) (fun hd => hroom (by omega))
    (t := close) (by rw [hcl]; rfl) ((ts ++ us) ++ rest)
  have hfirst := hs levels (us ++ rest) (fun hd => hroom (by omega)) hfree
  unfold Parser.ifStatement
  refine Leads.must hst (Leads.bind (v := close :: (ts ++ us)) hcondition ?_)
  exact Leads.must hcl (Leads.bind hfirst helse)

theorem ifThen {keyword start close : Token} {s : Stmt} {dangling : Bool} {cs : List Token}
    (hk : keyword.kind = .if) (hst : start.kind = .leftParen)
    (h : ExpressionAccepted deep .assignment e cs) (ho : Opens Strength.assignment.starts cs)
    (hcl : close.kind = .rightParen) (hs : Accepts deep (.statement dangling s) ts) :
    Accepts deep (.statement true (.if e s none)) (keyword :: start :: (cs ++ close :: ts)) := by
  refine keywordForm hk (fun _ => rfl) fun levels rest hroom hfree => ?_
  have hfree := hfree rfl
  rw [← List.append_nil ts] at hroom ⊢
  refine ifStatement hst h ho hcl hs (hroom.within ?_) (fun _ => hfree) ?_
  · simp only [List.length_cons]
    omega
  · exact Leads.passKind hfree (.refl _)

theorem ifElse {keyword start close other : Token} {s s' : Stmt} {dangling : Bool}
    {cs : List Token} (hk : keyword.kind = .if) (hst : start.kind = .leftParen)
    (h : ExpressionAccepted deep .assignment e cs) (ho : Opens Strength.assignment.starts cs)
    (hcl : close.kind = .rightParen) (hs : Accepts deep (.statement false s) ts)
    (hother : other.kind = .else) (hs' : Accepts deep (.statement dangling s') us) :
    Accepts deep (.statement dangling (.if e s (some s')))
      (keyword :: start :: (cs ++ close :: (ts ++ other :: us))) := by
  refine keywordForm hk (fun _ => rfl) fun levels rest hroom hfree => ?_
  refine ifStatement hst h ho hcl hs (hroom.within ?_) (fun hd => by cases hd) ?_
  · simp only [List.length_cons]
    omega
  · have hsecond := hs' levels rest (hroom.within (by
      simp only [List.length_cons, List.length_append]; omega)) hfree
    exact Leads.enterKind hother (Leads.map (Leads.map hsecond))

/-! ### Declarations -/

/-- A declaration is read at one level more than its form. -/
theorem declared {s : Stmt} (hn : ts ≠ [])
    (h : ∀ levels rest, Room deep (levels + 5) ts → NoElse rest →
      Runs deep (declarationForms (Parser.expression levels) (Parser.block levels)
        (Parser.statement levels)) ts rest s) : Accepts deep (.declaration s) ts := by
  intro levels rest hroom hfree
  have hpos := List.length_pos_iff.mpr hn
  cases levels with
  | zero => exact Leads.tooDeep (hroom (by omega))
  | succ levels => exact Leads.recovering (h levels rest (hroom.within (by omega)) hfree)

/-- No function declaration begins here. -/
theorem passFunction {yes no : Parser Stmt} {s : Stmt}
    (hn : ∀ t next more, ts ++ rest = t :: next :: more → t.kind = .fun ∨ t.kind = .define →
      next.kind ≠ .identifier) (hno : Runs deep no ts rest s) :
    Runs deep (functionFollows >>= fun b => if b = true then skip >>= fun _ => yes else no) ts rest
      s := by
  have hfollows : Runs deep functionFollows [] (ts ++ rest) false := by
    intro c hc _
    have hc' : c.rest = ts ++ rest := hc
    refine .inl ?_
    rw [functionFollows_run, Cursor.eq_behind hc', hc']
    split
    · next t next more ht =>
        have hfalse : ¬ ((t.kind = .fun ∨ t.kind = .define) ∧ next.kind = .identifier) :=
          fun h => hn t next more ht h.1 h.2
        simp only [hfalse, decide_false]
        rfl
    · rfl
  exact Leads.look hfollows hno

/-- A function declaration begins here. -/
theorem enterFunction {yes no : Parser Stmt} {s : Stmt} {keyword name : Token}
    (hk : keyword.kind = .fun ∨ keyword.kind = .define) (hn : name.kind = .identifier)
    (hyes : Runs deep yes (name :: ts) rest s) :
    Runs deep (functionFollows >>= fun b => if b = true then skip >>= fun _ => yes else no)
      (keyword :: name :: ts) rest s := by
  have hfollows : Runs deep functionFollows [] ((keyword :: name :: ts) ++ rest) true := by
    intro c hc _
    have hc' : c.rest = (keyword :: name :: ts) ++ rest := hc
    refine .inl ?_
    rw [functionFollows_run, Cursor.eq_behind hc', hc']
    simp only [List.cons_append, hk, hn, and_self, decide_true]
    rfl
  have hskip : Runs deep skip [keyword] ((name :: ts) ++ rest) () := by
    intro c hc _
    refine .inl ?_
    change EStateM.Result.ok () { c with rest := c.rest.tail } = _
    rw [hc]
    rfl
  exact Leads.look hfollows (Leads.bind hskip hyes)

theorem declarationStatement {s : Stmt} {dangling : Bool} (ho : Opens TokenKind.startsForm ts)
    (h : Accepts deep (.statement dangling s) ts) : Accepts deep (.declaration s) ts := by
  refine declared ho.ne_nil fun levels rest hroom hfree => ?_
  have hstatement := h levels rest hroom fun _ => hfree
  refine Leads.passKind (ho.kind_ne rfl rest) ?_
  refine passFunction (fun t next more ht hk => ?_) ?_
  · obtain ⟨t', more', ht', -, hlambda⟩ := ho.append rest
    rw [ht] at ht'
    cases ht'
    obtain ⟨next', others, hnext, hparen⟩ := hlambda hk
    cases hnext
    rw [hparen]
    decide
  refine Leads.pass (ofToken?_eq_none ho ⟨rfl, rfl⟩ rest) ?_
  exact Leads.passKind (ho.kind_ne rfl rest) hstatement

theorem declarationVariable {s : Stmt} (h : Accepts deep (.variable s) ts) :
    Accepts deep (.declaration s) ts := by
  obtain ⟨keyword, mutability, us, rfl, hm, h⟩ := h
  have hk := Reads.mutability_ofToken hm
  have hne : ∀ kind : TokenKind, kind ≠ .var → kind ≠ .const → keyword.kind ≠ kind := by
    intro kind h₁ h₂ he
    rcases hk with ⟨-, h⟩ | ⟨-, h⟩ <;> rw [h] at he <;> simp_all
  refine declared (List.cons_ne_nil _ _) fun levels rest hroom _ => ?_
  refine Leads.passKind (kind_ne_of_front rfl (hne _ (by decide) (by decide))) ?_
  refine passFunction (fun t next more ht hf => ?_) ?_
  · obtain rfl : keyword = t := (List.cons.inj ht).1
    rcases hf with hf | hf
    · exact absurd hf (hne _ (by decide) (by decide))
    · exact absurd hf (hne _ (by decide) (by decide))
  exact Leads.enter hm (h levels rest (hroom.within (by omega)))

theorem declarationFunction {keyword name : Token} {params : List Token} {body : List Stmt}
    (hk : keyword.kind = .fun ∨ keyword.kind = .define) (hn : name.kind = .identifier)
    (h : Accepts deep (.function (.mk (some name) params body)) ts) :
    Accepts deep (.declaration (.function (.mk (some name) params body)))
      (keyword :: name :: ts) := by
  refine declared (List.cons_ne_nil _ _) fun levels rest hroom _ => ?_
  have hne : keyword.kind ≠ .class := by rcases hk with h | h <;> rw [h] <;> decide
  have hfunction := namedFunction (n := levels) hn h
    (hroom.within (by simp only [List.length_cons]; omega)) .function rest
  refine Leads.passKind (kind_ne_of_front rfl hne) ?_
  exact enterFunction hk hn (Leads.map hfunction)

theorem declarationClass {keyword name brace last : Token} {parent : Option NameUse}
    {fs : List FunctionDecl} {hs : List Token} (hk : keyword.kind = .class)
    (hn : name.kind = .identifier) (hh : Heritage hs parent) (hb : brace.kind = .leftBrace)
    (h : Accepts deep (.methods fs) ts) (hl : last.kind = .rightBrace) :
    Accepts deep (.declaration (.class name parent fs))
      (keyword :: name :: (hs ++ brace :: (ts ++ [last]))) := by
  refine declared (List.cons_ne_nil _ _) fun levels rest hroom _ => ?_
  refine Leads.enterKind hk (classDeclaration hn hh hb h hl (hroom.within ?_) rest)
  simp only [List.length_cons, List.length_append]
  omega

theorem declarationImport {keyword name semicolon : Token} {as : Option Token}
    (hk : keyword.kind = .import) (hn : name.kind = .identifier ∨ name.kind = .string)
    (ha : Alias ts as) (hs : semicolon.kind = .semicolon) :
    Accepts deep (.declaration (.importModule keyword name as))
      (keyword :: name :: (ts ++ [semicolon])) := by
  refine declared (List.cons_ne_nil _ _) fun levels rest _ _ => ?_
  refine Leads.passKind (kind_ne_of_front hk (by decide)) ?_
  refine passFunction (fun t next more ht hf => ?_) ?_
  · cases ht
    rw [hk] at hf
    simp at hf
  refine Leads.pass (none_of_front (by simp [Mutability.ofToken?, hk])) ?_
  exact Leads.enterKind hk (importDeclaration hn ha hs rest)

/-- No declaration begins with `else` or a closing brace. -/
theorem noElse {ss : List Stmt} (ho : Phrase.Opening (.declarations ss) ts)
    (hrest : NoElse rest) : NoElse (ts ++ rest) := by
  intro t more ht he
  cases ts with
  | nil => exact hrest t more ht he
  | cons t' more' =>
      cases ht
      have hk := ho t more' rfl
      rw [he] at hk
      cases hk

theorem programRound {item : Parser (List Stmt)} {fuel : Nat} {a b : List Stmt} (hn : ts ≠ [])
    (hitem : Runs deep item ts (us ++ rest) a)
    (hmore : Runs deep (program item fuel) us rest b) :
    Runs deep (program item (fuel + 1)) (ts ++ us) rest (a ++ b) := by
  obtain ⟨t, more, rfl⟩ := List.exists_cons_of_ne_nil hn
  have hround : Runs deep (item >>= fun first => program item fuel >>= fun others =>
      Pure.pure (first ++ others)) ((t :: more) ++ us) rest (a ++ b) :=
    Leads.bind hitem (Leads.map hmore)
  intro c hc hs
  have heq : program item (fuel + 1) c = (item >>= fun first =>
      program item fuel >>= fun others => Pure.pure (first ++ others)) c := by
    rw [program]
    rw [Watched.get_bind]
    simp only [hc, List.cons_append]
  rw [heq]
  exact hround c hc hs

theorem declarationsNil : Accepts deep (.declarations []) [] := by
  constructor
  · intro levels fuel last rest _ hl hfuel
    obtain ⟨fuel, rfl⟩ : ∃ n, fuel = n + 1 := ⟨fuel - 1, by simp at hfuel; omega⟩
    exact braceEnd hl rest
  · intro levels fuel _ hfuel c hc _
    obtain ⟨fuel, rfl⟩ : ∃ n, fuel = n + 1 := ⟨fuel - 1, by simp at hfuel; omega⟩
    have hc' : c.rest = [] := hc
    refine .inl ?_
    rw [program]
    rw [Watched.get_bind]
    simp only [hc']
    rw [Cursor.eq_behind hc']

theorem declarationsCons {s : Stmt} {ss : List Stmt}
    (ho : ∃ t more, ts = t :: more ∧ t.kind.startsDeclaration = true)
    (h : Accepts deep (.declaration s) ts) (ho' : Phrase.Opening (.declarations ss) us)
    (h' : Accepts deep (.declarations ss) us) : Accepts deep (.declarations (s :: ss)) (ts ++ us) := by
  have hpos : 0 < ts.length := by
    obtain ⟨t, more, rfl, -⟩ := ho
    exact Nat.succ_pos _
  constructor
  · intro levels fuel last rest hroom hl hfuel
    simp only [Room, List.length_append] at hroom hfuel
    obtain ⟨fuel, rfl⟩ : ∃ n, fuel = n + 1 := ⟨fuel - 1, by omega⟩
    have hfree : NoElse (us ++ last :: rest) := noElse ho' fun t more ht => by
      cases ht
      rw [hl]
      decide
    have hbrace : ∃ t more, ts = t :: more ∧ t.kind ≠ .rightBrace := by
      obtain ⟨t, more, rfl, hk⟩ := ho
      refine ⟨t, more, rfl, fun he => ?_⟩
      rw [he] at hk
      cases hk
    have hfirst := h levels _ (fun hd => hroom (by omega)) hfree
    have hothers := h'.1 levels fuel last rest (fun hd => hroom (by omega)) hl (by omega)
    exact braceRound (a := [s]) hbrace hfirst hothers
  · intro levels fuel hroom hfuel
    simp only [Room, List.length_append] at hroom hfuel
    obtain ⟨fuel, rfl⟩ : ∃ n, fuel = n + 1 := ⟨fuel - 1, by omega⟩
    have hfree : NoElse (us ++ []) := noElse ho' fun t more ht => by cases ht
    have hfirst := h levels _ (fun hd => hroom (by omega)) hfree
    have hothers := h'.2 levels fuel (fun hd => hroom (by omega)) (by omega)
    exact programRound (a := [s]) (List.length_pos_iff.mp hpos) hfirst hothers

end Accepts

/-! ### All phrases -/

theorem accepts_of_derives (deep : Prop) {phrase : Phrase} {ts : List Token}
    (h : Derives phrase ts) : Accepts deep phrase ts := by
  -- The reader chooses by the next token, so of each part the first token matters as well.
  induction h with
  | tighter hs he ih => exact ih.tighter hs he.opening
  | @assign name equals e ts hn heq he ih =>
      have hname : ExpressionAccepted deep .primary (.name { name := name }) [name] :=
        Accepts.atom (.name hn)
      have hopens : Opens Strength.primary.starts [name] := (Atom.name hn).opens
      have hcall := hname.tighter (s := .call) rfl hopens
      have hopens := hopens.mono fun _ => Strength.starts_of_tighter (s := .call) rfl
      exact Accepts.assignment (hopens.mono fun _ h => Strength.starts_of_operand h)
        (Accepts.target hopens hcall) heq ih rfl
  | @set dot name equals object e os ts ho hd hn heq he ih ih' =>
      have hget := Accepts.get ih ho.opening hd hn
      have hopens : Opens Strength.call.starts (os ++ [dot, name]) := ho.opening.append _
      rw [show os ++ dot :: name :: equals :: ts = (os ++ [dot, name]) ++ equals :: ts by simp]
      exact Accepts.assignment (hopens.mono fun _ h => Strength.starts_of_operand h)
        (Accepts.target hopens hget) heq ih' rfl
  | operation hi hs hl hr ih ih' => exact Accepts.operation hi hs ih hl.opening ih'
  | not ht _ ih => exact Accepts.unary (by simp [UnaryOp.ofToken?, ht]) ih
  | negate ht _ ih => exact Accepts.unary (by simp [UnaryOp.ofToken?, ht]) ih
  | call hc hs hp ih => exact Accepts.call ih hc.opening hs hp
  | callWith hc hs ha hn hp ih ih' =>
      exact Accepts.callWith ih hc.opening hs ih' ha.opening hn hp
  | get ho hd hn ih => exact Accepts.get ih ho.opening hd hn
  | atom ha => exact Accepts.atom ha
  | super hk hd hm => exact Accepts.super hk hd hm
  | lambda hk _ ih => exact Accepts.lambda hk ih
  | grouping hs he hc ih => exact Accepts.grouping hs ih he.opening hc
  | optionalNone => exact Accepts.optionalNone
  | optionalSome he ih => exact Accepts.optional ih he.opening
  | argument he ih => exact Accepts.argument ih he.opening
  | argumentMore he hc _ ih ih' => exact Accepts.argumentMore ih he.opening hc ih'
  | function hs hps hc hb _ hl ih => exact Accepts.function hs hps hc hb ih hl
  | methodsNil => exact Accepts.methodsNil
  | methodsCons hn _ _ ih ih' => exact Accepts.methodsCons hn ih ih'
  | «variable» hk hn hs => exact Accepts.uninitialized hk hn hs
  | variableWith hk hn heq he hs ih =>
      exact Accepts.variableWith (by simp [Mutability.ofToken?, hk]) hn heq ih he.opening hs
  | constant hk hn heq he hs ih =>
      exact Accepts.variableWith (by simp [Mutability.ofToken?, hk]) hn heq ih he.opening hs
  | initialNone hs => exact Accepts.initialNone hs
  | initialVariable hv ih => exact Accepts.initialVariable hv.opening ih
  | initialExpression he hs ih => exact Accepts.initialExpression ih he.opening hs
  | expressionStatement he hs ih => exact Accepts.simple ih he.opening hs
  | print hk he hs ih => exact Accepts.print hk ih he.opening hs
  | «return» hk _ hs ih => exact Accepts.returning hk ih hs
  | «break» hk hs => exact Accepts.breaking hk hs
  | «continue» hk hs => exact Accepts.continuing hk hs
  | block hb _ hl ih => exact Accepts.blockStatement hb ih hl
  | «while» hk hst he hcl _ ih ih' => exact Accepts.whileLoop hk hst ih he.opening hcl ih'
  | ifThen hk hst he hcl _ ih ih' => exact Accepts.ifThen hk hst ih he.opening hcl ih'
  | ifElse hk hst he hcl _ hother _ ih ih' ih'' =>
      exact Accepts.ifElse hk hst ih he.opening hcl ih' hother ih''
  | forFrom hk hst _ _ hsemi _ hcl _ hi hc ha hs =>
      exact Accepts.keywordForm hk (fun _ => rfl) fun levels rest hroom hfree =>
        Accepts.forLoop hst hi hc hsemi ha hcl hs
          (hroom.within (by simp only [List.length_cons]; omega)) hfree
  | forWith hk hst _ _ hsemi _ hcl _ hi hc ha hs =>
      exact Accepts.keywordForm hk (fun _ => rfl) fun levels rest hroom hfree =>
        Accepts.forLoop hst hi hc hsemi ha hcl hs
          (hroom.within (by simp only [List.length_cons]; omega)) hfree
  | declarationStatement hs ih => exact Accepts.declarationStatement hs.opening ih
  | declarationVariable _ ih => exact Accepts.declarationVariable ih
  | declarationFunction hk hn _ ih => exact Accepts.declarationFunction hk hn ih
  | declarationClass hk hn hh hb _ hl ih => exact Accepts.declarationClass hk hn hh hb ih hl
  | declarationImport hk hn ha hs => exact Accepts.declarationImport hk hn ha hs
  | declarationsNil => exact Accepts.declarationsNil
  | declarationsCons hs hss ih ih' =>
      exact Accepts.declarationsCons hs.opening ih hss.opening ih'

end Parser

/-- Every derivation is found, unless there are fewer than sixteen levels a token and the nesting
limit is met. -/
theorem parseTokens_of_derives (levels endLine : Nat) {tokens : List Token} {T : List Stmt}
    (h : Derives (.declarations T) tokens) :
    parseTokens levels tokens endLine = ⟨T, []⟩ ∨
      levels < 16 * tokens.length ∧ (parseTokens levels tokens endLine).TooDeep := by
  -- With `deep` false, that is with enough levels, the run does not give up.
  have hrun : ∀ deep : Prop, Parser.Room deep levels tokens →
      Parser.Runs deep (Parser.perToken (Parser.program (Parser.declaration levels))) tokens [] T :=
    fun deep hroom => .perToken fun fuel hfuel =>
      (Parser.accepts_of_derives deep h).2 levels fuel (hroom.within (by omega)) hfuel
  unfold parseTokens
  rcases hrun (levels < 16 * tokens.length) id { rest := tokens, endLine := endLine }
    (by simp) (Nat.le_refl _) with hr | ⟨hlevels, c, hr⟩
  · rw [hr]
    exact .inl rfl
  · rw [hr]
    refine .inr ⟨hlevels, ⟨c.place, .tooMuchNesting⟩, ?_, rfl⟩
    simp [Cursor.report]

/-- The reader accepts exactly the grammar: short of the nesting limit, which no derivation meets
that has sixteen levels a token, it reads a list of statements without a report if and only if the
tokens are those of that list. -/
theorem parseTokens_iff_derives (levels : Nat) (tokens : List Token) (endLine : Nat)
    (T : List Stmt) :
    (parseTokens levels tokens endLine = ⟨T, []⟩ ↔
      Derives (.declarations T) tokens ∧ ¬ (parseTokens levels tokens endLine).TooDeep) ∧
    (Derives (.declarations T) tokens → 16 * tokens.length ≤ levels →
      parseTokens levels tokens endLine = ⟨T, []⟩) := by
  refine ⟨⟨fun h => ⟨derives_of_parseTokens h, ?_⟩, fun ⟨hd, hn⟩ => ?_⟩, fun hd hl => ?_⟩
  · rintro ⟨d, hd, -⟩
    rw [h] at hd
    cases hd
  · rcases parseTokens_of_derives levels endLine hd with h | ⟨-, h⟩
    · exact h
    · exact absurd h hn
  · rcases parseTokens_of_derives levels endLine hd with h | ⟨h, -⟩
    · exact h
    · omega

/-- An `else` behind two conditionals belongs to the second. -/
theorem parseTokens_nearest_else :
    let t (kind : TokenKind) : Token := { kind := kind, lexeme := "", line := 1 }
    let x : Expr := .name { name := t .identifier }
    parseTokens 240
      [t .if, t .leftParen, t .identifier, t .rightParen,
       t .if, t .leftParen, t .identifier, t .rightParen,
       t .print, t .identifier, t .semicolon, t .else, t .print, t .identifier, t .semicolon] 1 =
      ⟨[.if x (.if x (.print x) (some (.print x))) none], []⟩ := by
  intro t x
  have hx : Derives (.expression .assignment x) [t .identifier] :=
    Derives.loosest (.atom (.name rfl))
  let print := t .print :: ([t .identifier] ++ [t .semicolon])
  have hprint : Derives (.statement false (.print x)) print := .print rfl hx rfl
  let inner := t .if :: t .leftParen :: ([t .identifier] ++ t .rightParen ::
    (print ++ t .else :: print))
  have hinner : Derives (.statement false (.if x (.print x) (some (.print x)))) inner :=
    .ifElse rfl rfl hx rfl hprint rfl hprint
  have houter : Derives (.statement true (.if x (.if x (.print x) (some (.print x))) none))
      (t .if :: t .leftParen :: ([t .identifier] ++ t .rightParen :: inner)) :=
    .ifThen rfl rfl hx rfl hinner
  have hall := Derives.declarationsCons (.declarationStatement houter) .declarationsNil
  exact (parseTokens_iff_derives 240 _ 1 _).2 hall (by decide)

end Treewalk
