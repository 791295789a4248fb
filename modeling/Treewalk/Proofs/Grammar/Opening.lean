import Treewalk.Proofs.Grammar.Derivation

/-!
# How phrases begin

The first token of a phrase tells its construct apart from the others that can stand in its place.
One construct needs its second token: a function keyword before a parenthesis begins a lambda
expression, before a name a declaration.
-/
namespace Treewalk

namespace TokenKind

/-- The kinds an operand without an operator in front can begin with. -/
def startsOperand : TokenKind → Bool
  | .false | .true | .nil | .number | .string | .super | .this | .identifier | .lambda | .fun
  | .define | .leftParen => Bool.true
  | _ => Bool.false

def startsExpression : TokenKind → Bool
  | .bang | .minus => Bool.true
  | kind => kind.startsOperand

/-- The kinds a statement that declares nothing can begin with. -/
def startsForm : TokenKind → Bool
  | .for | .if | .print | .return | .while | .break | .continue | .leftBrace => Bool.true
  | kind => kind.startsExpression

def startsDeclaration : TokenKind → Bool
  | .class | .var | .const | .import => Bool.true
  | kind => kind.startsForm

theorem startsExpression_of_operand {kind : TokenKind} (h : kind.startsOperand = Bool.true) :
    kind.startsExpression = Bool.true := by cases kind <;> first | rfl | cases h

theorem startsForm_of_expression {kind : TokenKind} (h : kind.startsExpression = Bool.true) :
    kind.startsForm = Bool.true := by cases kind <;> first | rfl | cases h

theorem startsDeclaration_of_form {kind : TokenKind} (h : kind.startsForm = Bool.true) :
    kind.startsDeclaration = Bool.true := by cases kind <;> first | rfl | cases h

end TokenKind

namespace Strength

/-- The place in the order of strengths. -/
def rank : Strength → Nat
  | .assignment => 0
  | .or => 1
  | .and => 2
  | .equality => 3
  | .comparison => 4
  | .term => 5
  | .factor => 6
  | .unary => 7
  | .call => 8
  | .primary => 9

theorem rank_tighter {s s' : Strength} (h : s.tighter? = some s') : s'.rank = s.rank + 1 := by
  cases s <;> cases h <;> rfl

/-- The kinds an expression of a strength can begin with. -/
def starts (s : Strength) (kind : TokenKind) : Bool :=
  if s.rank ≤ Strength.unary.rank then kind.startsExpression else kind.startsOperand

theorem starts_expression {s : Strength} {kind : TokenKind} (h : s.starts kind = true) :
    kind.startsExpression = true := by
  unfold starts at h
  split at h
  · exact h
  · exact TokenKind.startsExpression_of_operand h

theorem starts_of_operand {s : Strength} {kind : TokenKind} (h : kind.startsOperand = true) :
    s.starts kind = true := by
  unfold starts
  split
  · exact TokenKind.startsExpression_of_operand h
  · exact h

theorem starts_of_tighter {s s' : Strength} {kind : TokenKind} (h : s.tighter? = some s')
    (h' : s'.starts kind = true) : s.starts kind = true := by
  have hr := rank_tighter h
  by_cases hs : s.rank ≤ Strength.unary.rank
  · simpa [starts, hs] using starts_expression h'
  · have hs' : ¬ s'.rank ≤ Strength.unary.rank := by omega
    simpa [starts, hs, hs'] using h'

end Strength

/-- The first token is of such a kind; if it is a function keyword, a lambda expression begins. -/
def Opens (kinds : TokenKind → Bool) (ts : List Token) : Prop :=
  ∃ t more, ts = t :: more ∧ kinds t.kind = true ∧
    (t.kind = .fun ∨ t.kind = .define →
      ∃ next others, more = next :: others ∧ next.kind = .leftParen)

namespace Opens
variable {kinds kinds' : TokenKind → Bool} {ts : List Token}

theorem append (h : Opens kinds ts) (us : List Token) : Opens kinds (ts ++ us) := by
  obtain ⟨t, more, rfl, hk, hf⟩ := h
  refine ⟨t, more ++ us, rfl, hk, fun ht => ?_⟩
  obtain ⟨next, others, rfl, hn⟩ := hf ht
  exact ⟨next, others ++ us, rfl, hn⟩

theorem mono (h : Opens kinds ts) (hk : ∀ kind, kinds kind = true → kinds' kind = true) :
    Opens kinds' ts := by
  obtain ⟨t, more, rfl, ht, hf⟩ := h
  exact ⟨t, more, rfl, hk _ ht, hf⟩

/-- A token that is no function keyword. -/
theorem cons {t : Token} {kind : TokenKind} (ht : t.kind = kind) (hk : kinds kind = true)
    (hn : kind ≠ .fun ∧ kind ≠ .define) (more : List Token) : Opens kinds (t :: more) := by
  refine ⟨t, more, rfl, by rw [ht]; exact hk, fun h => ?_⟩
  rw [ht] at h
  exact absurd h (by simp [hn])

theorem ne_nil (h : Opens kinds ts) : ts ≠ [] := by
  obtain ⟨t, more, rfl, -⟩ := h
  simp

theorem kind (h : Opens kinds ts) {t : Token} {more : List Token} (ht : ts = t :: more) :
    kinds t.kind = true := by
  obtain ⟨t', more', rfl, hk, -⟩ := h
  cases ht
  exact hk

end Opens

/-- How a phrase begins. -/
def Phrase.Opening : Phrase → List Token → Prop
  | .expression s _, ts => Opens s.starts ts
  | .optional none, ts => ts = []
  | .optional (some _), ts => Opens TokenKind.startsExpression ts
  | .arguments _, ts => Opens TokenKind.startsExpression ts
  | .function _, ts => ∃ t more, ts = t :: more ∧ t.kind = .leftParen
  | .variable _, ts => ∃ t more, ts = t :: more ∧ (t.kind = .var ∨ t.kind = .const)
  | .initial none, ts => ∃ t more, ts = t :: more ∧ t.kind = .semicolon
  | .initial (some _), ts => ts ≠ []
  | .statement _ _, ts => Opens TokenKind.startsForm ts
  | .declaration _, ts => ∃ t more, ts = t :: more ∧ t.kind.startsDeclaration = true
  | .methods _, ts => ∀ t more, ts = t :: more → t.kind = .identifier
  | .declarations _, ts => ∀ t more, ts = t :: more → t.kind.startsDeclaration = true

theorem Atom.opens {t : Token} {e : Expr} (h : Atom t e) : Opens Strength.primary.starts [t] := by
  cases h <;> next hk => exact Opens.cons hk rfl (by decide) []

theorem Derives.opening {phrase : Phrase} {ts : List Token} (h : Derives phrase ts) :
    phrase.Opening ts := by
  have hexpression : ∀ {ts : List Token}, Opens Strength.assignment.starts ts →
      Opens TokenKind.startsExpression ts := fun h => h.mono fun _ => Strength.starts_expression
  induction h with
  | tighter hs _ ih => exact ih.mono fun _ => Strength.starts_of_tighter hs
  | assign hn _ _ _ => exact Opens.cons hn rfl (by decide) _
  | set _ _ _ _ _ ih _ =>
      exact (ih.mono fun _ h => Strength.starts_of_operand (s := .assignment) h).append _
  | operation _ _ _ _ ih _ => exact ih.append _
  | not ht _ _ => exact Opens.cons ht rfl (by decide) _
  | negate ht _ _ => exact Opens.cons ht rfl (by decide) _
  | call _ _ _ ih => exact ih.append _
  | callWith _ _ _ _ _ ih _ => exact ih.append _
  | get _ _ _ ih => exact ih.append _
  | atom ha => exact ha.opens
  | super hk _ _ => exact Opens.cons hk rfl (by decide) _
  | @lambda keyword _ _ ts hk _ ih =>
      obtain ⟨t, more, rfl, ht⟩ := ih
      refine ⟨keyword, t :: more, rfl, ?_, fun _ => ⟨t, more, rfl, ht⟩⟩
      rcases hk with h | h | h <;> rw [h] <;> rfl
  | grouping hs _ _ _ => exact Opens.cons hs rfl (by decide) _
  | optionalNone => rfl
  | optionalSome _ ih => exact hexpression ih
  | argument _ ih => exact hexpression ih
  | argumentMore _ _ _ ih _ => exact (hexpression ih).append _
  | function hs _ _ _ _ _ _ => exact ⟨_, _, rfl, hs⟩
  | methodsNil => intro t more h; cases h
  | methodsCons hn _ _ _ _ =>
      intro t more h
      cases h
      exact hn
  | «variable» hk _ _ => exact ⟨_, _, rfl, .inl hk⟩
  | variableWith hk _ _ _ _ _ => exact ⟨_, _, rfl, .inl hk⟩
  | constant hk _ _ _ _ _ => exact ⟨_, _, rfl, .inr hk⟩
  | initialNone hs => exact ⟨_, _, rfl, hs⟩
  | initialVariable _ ih =>
      obtain ⟨t, more, rfl, -⟩ := ih
      exact List.cons_ne_nil _ _
  | initialExpression _ _ ih => exact (ih.append _).ne_nil
  | expressionStatement _ _ ih =>
      exact ((hexpression ih).mono fun _ => TokenKind.startsForm_of_expression).append _
  | print hk _ _ _ => exact Opens.cons hk rfl (by decide) _
  | «return» hk _ _ _ => exact Opens.cons hk rfl (by decide) _
  | «break» hk _ => exact Opens.cons hk rfl (by decide) _
  | «continue» hk _ => exact Opens.cons hk rfl (by decide) _
  | block hb _ _ _ => exact Opens.cons hb rfl (by decide) _
  | «while» hk _ _ _ _ _ _ => exact Opens.cons hk rfl (by decide) _
  | ifThen hk _ _ _ _ _ _ => exact Opens.cons hk rfl (by decide) _
  | ifElse hk _ _ _ _ _ _ _ _ _ => exact Opens.cons hk rfl (by decide) _
  | forFrom hk _ _ _ _ _ _ _ _ _ _ _ => exact Opens.cons hk rfl (by decide) _
  | forWith hk _ _ _ _ _ _ _ _ _ _ _ => exact Opens.cons hk rfl (by decide) _
  | declarationStatement _ ih =>
      obtain ⟨t, more, rfl, hk, -⟩ := ih
      exact ⟨t, more, rfl, TokenKind.startsDeclaration_of_form hk⟩
  | declarationVariable _ ih =>
      obtain ⟨t, more, rfl, h | h⟩ := ih <;> exact ⟨t, more, rfl, by rw [h]; rfl⟩
  | declarationFunction hk _ _ _ =>
      rcases hk with h | h <;> exact ⟨_, _, rfl, by rw [h]; rfl⟩
  | declarationClass hk _ _ _ _ _ _ => exact ⟨_, _, rfl, by rw [hk]; rfl⟩
  | declarationImport hk _ _ _ => exact ⟨_, _, rfl, by rw [hk]; rfl⟩
  | declarationsNil => intro t more h; cases h
  | declarationsCons _ _ ih _ =>
      obtain ⟨t, more, rfl, hk⟩ := ih
      intro t' more' h
      cases h
      exact hk

end Treewalk
