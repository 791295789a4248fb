import Treewalk.Tree

/-!
# The grammar as a relation

Which token lists a tree is written with, said without any reader. A phrase is a construct with its
tree, and `Derives` has one rule for each way of writing a phrase. No rule looks ahead: that an
`else` belongs to the nearest `if` is said by the flag of a statement, which tells whether an `else`
behind the statement would still belong to it.
-/
namespace Treewalk

/-- How tightly an expression holds together, loosest first. -/
inductive Strength
  | assignment | or | and | equality | comparison | term | factor | unary | call | primary
deriving DecidableEq, Repr

namespace Strength

/-- The next tighter strength. -/
def tighter? : Strength → Option Strength
  | .assignment => some .or
  | .or => some .and
  | .and => some .equality
  | .equality => some .comparison
  | .comparison => some .term
  | .term => some .factor
  | .factor => some .unary
  | .unary => some .call
  | .call => some .primary
  | .primary => none

end Strength

/-- The operators between two operands, their strengths, and the trees they make. -/
inductive Infix (t : Token) : Strength → (Expr → Expr → Expr) → Prop
  | or : t.kind = .or → Infix t .or fun l r => .logical l .or t r
  | and : t.kind = .and → Infix t .and fun l r => .logical l .and t r
  | equal : t.kind = .equalEqual → Infix t .equality fun l r => .binary l .equal t r
  | notEqual : t.kind = .bangEqual → Infix t .equality fun l r => .binary l .notEqual t r
  | less : t.kind = .less → Infix t .comparison fun l r => .binary l .less t r
  | lessEqual : t.kind = .lessEqual → Infix t .comparison fun l r => .binary l .lessEqual t r
  | greater : t.kind = .greater → Infix t .comparison fun l r => .binary l .greater t r
  | greaterEqual :
      t.kind = .greaterEqual → Infix t .comparison fun l r => .binary l .greaterEqual t r
  | add : t.kind = .plus → Infix t .term fun l r => .binary l .add t r
  | subtract : t.kind = .minus → Infix t .term fun l r => .binary l .subtract t r
  | multiply : t.kind = .star → Infix t .factor fun l r => .binary l .multiply t r
  | divide : t.kind = .slash → Infix t .factor fun l r => .binary l .divide t r
  | remainder : t.kind = .percent → Infix t .factor fun l r => .binary l .remainder t r

/-- The tokens that are expressions by themselves. -/
inductive Atom (t : Token) : Expr → Prop
  | false : t.kind = .false → Atom t (.literal (.bool Bool.false))
  | true : t.kind = .true → Atom t (.literal (.bool Bool.true))
  | nil : t.kind = .nil → Atom t (.literal .nil)
  | number : t.kind = .number → Atom t (.literal (t.literal.getD .nil))
  | string : t.kind = .string → Atom t (.literal (t.literal.getD .nil))
  | name : t.kind = .identifier → Atom t (.name { name := t })
  | this : t.kind = .this → Atom t (.this { name := t })

/-- Identifiers with commas between them. -/
inductive Names : List Token → List Token → Prop
  | one {t : Token} : t.kind = .identifier → Names [t] [t]
  | more {t comma : Token} {ts names : List Token} : t.kind = .identifier → comma.kind = .comma →
      Names ts names → Names (t :: comma :: ts) (t :: names)

/-- What stands between the parentheses of a declaration: at most 255 parameters. -/
inductive Parameters : List Token → List Token → Prop
  | none : Parameters [] []
  | some {ts names : List Token} : Names ts names → names.length ≤ 255 → Parameters ts names

/-- The superclass clause of a class. -/
inductive Heritage : List Token → Option NameUse → Prop
  | none : Heritage [] none
  | some {mark name : Token} : mark.kind = .colon ∨ mark.kind = .less → name.kind = .identifier →
      Heritage [mark, name] (some { name := name })

/-- The alias clause of an import. -/
inductive Alias : List Token → Option Token → Prop
  | none : Alias [] none
  | some {mark name : Token} : mark.kind = .as → name.kind = .identifier →
      Alias [mark, name] (some name)

/-- The constructs of the language with their trees. -/
inductive Phrase
  | expression (s : Strength) (e : Expr)
  /-- An expression or nothing. -/
  | optional (e : Option Expr)
  /-- Expressions with commas between them. -/
  | arguments (es : List Expr)
  /-- Parameters and body of a function. -/
  | function (f : FunctionDecl)
  | methods (fs : List FunctionDecl)
  /-- A variable or constant with its keyword. -/
  | variable (s : Stmt)
  /-- The first clause of a `for` loop with its semicolon. -/
  | initial (s : Option Stmt)
  /-- A statement that declares nothing. If it is `dangling`, an `else` behind it is its own. -/
  | statement (dangling : Bool) (s : Stmt)
  | declaration (s : Stmt)
  | declarations (ss : List Stmt)

/-- The tokens with which phrases are written. -/
inductive Derives : Phrase → List Token → Prop
  | tighter {s s' : Strength} {e : Expr} {ts : List Token} : s.tighter? = some s' →
      Derives (.expression s' e) ts → Derives (.expression s e) ts
  | assign {name equals : Token} {e : Expr} {ts : List Token} :
      name.kind = .identifier → equals.kind = .equal → Derives (.expression .assignment e) ts →
      Derives (.expression .assignment (.assign { name := name } e)) (name :: equals :: ts)
  | set {dot name equals : Token} {object e : Expr} {os ts : List Token} :
      Derives (.expression .call object) os → dot.kind = .dot → name.kind = .identifier →
      equals.kind = .equal → Derives (.expression .assignment e) ts →
      Derives (.expression .assignment (.set object name e)) (os ++ dot :: name :: equals :: ts)
  | operation {s s' : Strength} {t : Token} {join : Expr → Expr → Expr} {l r : Expr}
      {ls rs : List Token} : Infix t s join → s.tighter? = some s' →
      Derives (.expression s l) ls → Derives (.expression s' r) rs →
      Derives (.expression s (join l r)) (ls ++ t :: rs)
  | not {t : Token} {e : Expr} {ts : List Token} : t.kind = .bang →
      Derives (.expression .unary e) ts → Derives (.expression .unary (.unary .not t e)) (t :: ts)
  | negate {t : Token} {e : Expr} {ts : List Token} : t.kind = .minus →
      Derives (.expression .unary e) ts →
      Derives (.expression .unary (.unary .negate t e)) (t :: ts)
  | call {start paren : Token} {callee : Expr} {cs : List Token} :
      Derives (.expression .call callee) cs → start.kind = .leftParen → paren.kind = .rightParen →
      Derives (.expression .call (.call callee paren [])) (cs ++ [start, paren])
  | callWith {start paren : Token} {callee : Expr} {es : List Expr} {cs as : List Token} :
      Derives (.expression .call callee) cs → start.kind = .leftParen →
      Derives (.arguments es) as → es.length ≤ 255 → paren.kind = .rightParen →
      Derives (.expression .call (.call callee paren es)) (cs ++ start :: (as ++ [paren]))
  | get {dot name : Token} {object : Expr} {os : List Token} :
      Derives (.expression .call object) os → dot.kind = .dot → name.kind = .identifier →
      Derives (.expression .call (.get object name)) (os ++ [dot, name])
  | atom {t : Token} {e : Expr} : Atom t e → Derives (.expression .primary e) [t]
  | super {keyword dot method : Token} : keyword.kind = .super → dot.kind = .dot →
      method.kind = .identifier →
      Derives (.expression .primary (.super { name := keyword } method)) [keyword, dot, method]
  | lambda {keyword : Token} {ps : List Token} {body : List Stmt} {ts : List Token} :
      keyword.kind = .lambda ∨ keyword.kind = .fun ∨ keyword.kind = .define →
      Derives (.function (.mk none ps body)) ts →
      Derives (.expression .primary (.lambda (.mk none ps body))) (keyword :: ts)
  | grouping {start close : Token} {e : Expr} {ts : List Token} : start.kind = .leftParen →
      Derives (.expression .assignment e) ts → close.kind = .rightParen →
      Derives (.expression .primary (.grouping e)) (start :: (ts ++ [close]))
  | optionalNone : Derives (.optional none) []
  | optionalSome {e : Expr} {ts : List Token} : Derives (.expression .assignment e) ts →
      Derives (.optional (some e)) ts
  | argument {e : Expr} {ts : List Token} : Derives (.expression .assignment e) ts →
      Derives (.arguments [e]) ts
  | argumentMore {comma : Token} {e : Expr} {es : List Expr} {ts us : List Token} :
      Derives (.expression .assignment e) ts → comma.kind = .comma → Derives (.arguments es) us →
      Derives (.arguments (e :: es)) (ts ++ comma :: us)
  | function {start close brace last : Token} {name : Option Token} {params ps : List Token}
      {body : List Stmt} {bs : List Token} : start.kind = .leftParen → Parameters ps params →
      close.kind = .rightParen → brace.kind = .leftBrace → Derives (.declarations body) bs →
      last.kind = .rightBrace →
      Derives (.function (.mk name params body))
        (start :: (ps ++ close :: brace :: (bs ++ [last])))
  | methodsNil : Derives (.methods []) []
  | methodsCons {name : Token} {params : List Token} {body : List Stmt} {fs : List FunctionDecl}
      {ts us : List Token} : name.kind = .identifier →
      Derives (.function (.mk (some name) params body)) ts → Derives (.methods fs) us →
      Derives (.methods (.mk (some name) params body :: fs)) (name :: (ts ++ us))
  | variable {keyword name semicolon : Token} : keyword.kind = .var → name.kind = .identifier →
      semicolon.kind = .semicolon →
      Derives (.variable (.var .variable name none)) [keyword, name, semicolon]
  | variableWith {keyword name equals semicolon : Token} {e : Expr} {ts : List Token} :
      keyword.kind = .var → name.kind = .identifier → equals.kind = .equal →
      Derives (.expression .assignment e) ts → semicolon.kind = .semicolon →
      Derives (.variable (.var .variable name (some e)))
        (keyword :: name :: equals :: (ts ++ [semicolon]))
  | constant {keyword name equals semicolon : Token} {e : Expr} {ts : List Token} :
      keyword.kind = .const → name.kind = .identifier → equals.kind = .equal →
      Derives (.expression .assignment e) ts → semicolon.kind = .semicolon →
      Derives (.variable (.var .constant name (some e)))
        (keyword :: name :: equals :: (ts ++ [semicolon]))
  | initialNone {semicolon : Token} : semicolon.kind = .semicolon →
      Derives (.initial none) [semicolon]
  | initialVariable {s : Stmt} {ts : List Token} : Derives (.variable s) ts →
      Derives (.initial (some s)) ts
  | initialExpression {semicolon : Token} {e : Expr} {ts : List Token} :
      Derives (.expression .assignment e) ts → semicolon.kind = .semicolon →
      Derives (.initial (some (.expression e))) (ts ++ [semicolon])
  | expressionStatement {semicolon : Token} {e : Expr} {ts : List Token} :
      Derives (.expression .assignment e) ts → semicolon.kind = .semicolon →
      Derives (.statement false (.expression e)) (ts ++ [semicolon])
  | print {keyword semicolon : Token} {e : Expr} {ts : List Token} : keyword.kind = .print →
      Derives (.expression .assignment e) ts → semicolon.kind = .semicolon →
      Derives (.statement false (.print e)) (keyword :: (ts ++ [semicolon]))
  | return {keyword semicolon : Token} {e : Option Expr} {ts : List Token} :
      keyword.kind = .return → Derives (.optional e) ts → semicolon.kind = .semicolon →
      Derives (.statement false (.return keyword e)) (keyword :: (ts ++ [semicolon]))
  | break {keyword semicolon : Token} : keyword.kind = .break → semicolon.kind = .semicolon →
      Derives (.statement false (.break keyword)) [keyword, semicolon]
  | continue {keyword semicolon : Token} : keyword.kind = .continue →
      semicolon.kind = .semicolon →
      Derives (.statement false (.continue keyword)) [keyword, semicolon]
  | block {brace last : Token} {body : List Stmt} {bs : List Token} : brace.kind = .leftBrace →
      Derives (.declarations body) bs → last.kind = .rightBrace →
      Derives (.statement false (.block body)) (brace :: (bs ++ [last]))
  | while {keyword start close : Token} {e : Expr} {s : Stmt} {dangling : Bool}
      {cs ts : List Token} : keyword.kind = .while → start.kind = .leftParen →
      Derives (.expression .assignment e) cs → close.kind = .rightParen →
      Derives (.statement dangling s) ts →
      Derives (.statement dangling (.while e s none)) (keyword :: start :: (cs ++ close :: ts))
  | ifThen {keyword start close : Token} {e : Expr} {s : Stmt} {dangling : Bool}
      {cs ts : List Token} : keyword.kind = .if → start.kind = .leftParen →
      Derives (.expression .assignment e) cs → close.kind = .rightParen →
      Derives (.statement dangling s) ts →
      Derives (.statement true (.if e s none)) (keyword :: start :: (cs ++ close :: ts))
  /-- The first branch must not dangle: the `else` would be its own. -/
  | ifElse {keyword start close other : Token} {e : Expr} {s s' : Stmt} {dangling : Bool}
      {cs ts us : List Token} : keyword.kind = .if → start.kind = .leftParen →
      Derives (.expression .assignment e) cs → close.kind = .rightParen →
      Derives (.statement false s) ts → other.kind = .else → Derives (.statement dangling s') us →
      Derives (.statement dangling (.if e s (some s')))
        (keyword :: start :: (cs ++ close :: (ts ++ other :: us)))
  /-- A loop whose first clause is empty is a `while` loop; without a condition it goes on. -/
  | forFrom {keyword start semicolon close : Token} {c a : Option Expr} {s : Stmt}
      {dangling : Bool} {is cs as ts : List Token} : keyword.kind = .for → start.kind = .leftParen →
      Derives (.initial none) is → Derives (.optional c) cs → semicolon.kind = .semicolon →
      Derives (.optional a) as → close.kind = .rightParen → Derives (.statement dangling s) ts →
      Derives (.statement dangling (.while (c.getD (.literal (.bool true))) s a))
        (keyword :: start :: (is ++ (cs ++ semicolon :: (as ++ close :: ts))))
  /-- Any other first clause stands in front of the loop, in a block with it. -/
  | forWith {keyword start semicolon close : Token} {i : Stmt} {c a : Option Expr} {s : Stmt}
      {dangling : Bool} {is cs as ts : List Token} : keyword.kind = .for → start.kind = .leftParen →
      Derives (.initial (some i)) is → Derives (.optional c) cs → semicolon.kind = .semicolon →
      Derives (.optional a) as → close.kind = .rightParen → Derives (.statement dangling s) ts →
      Derives (.statement dangling (.block [i, .while (c.getD (.literal (.bool true))) s a]))
        (keyword :: start :: (is ++ (cs ++ semicolon :: (as ++ close :: ts))))
  | declarationStatement {s : Stmt} {dangling : Bool} {ts : List Token} :
      Derives (.statement dangling s) ts → Derives (.declaration s) ts
  | declarationVariable {s : Stmt} {ts : List Token} : Derives (.variable s) ts →
      Derives (.declaration s) ts
  | declarationFunction {keyword name : Token} {params : List Token} {body : List Stmt}
      {ts : List Token} : keyword.kind = .fun ∨ keyword.kind = .define →
      name.kind = .identifier → Derives (.function (.mk (some name) params body)) ts →
      Derives (.declaration (.function (.mk (some name) params body))) (keyword :: name :: ts)
  | declarationClass {keyword name brace last : Token} {parent : Option NameUse}
      {fs : List FunctionDecl} {hs ts : List Token} : keyword.kind = .class →
      name.kind = .identifier → Heritage hs parent → brace.kind = .leftBrace →
      Derives (.methods fs) ts → last.kind = .rightBrace →
      Derives (.declaration (.class name parent fs))
        (keyword :: name :: (hs ++ brace :: (ts ++ [last])))
  | declarationImport {keyword name semicolon : Token} {as : Option Token} {ts : List Token} :
      keyword.kind = .import → name.kind = .identifier ∨ name.kind = .string → Alias ts as →
      semicolon.kind = .semicolon →
      Derives (.declaration (.importModule keyword name as))
        (keyword :: name :: (ts ++ [semicolon]))
  | declarationsNil : Derives (.declarations []) []
  | declarationsCons {s : Stmt} {ss : List Stmt} {ts us : List Token} :
      Derives (.declaration s) ts → Derives (.declarations ss) us →
      Derives (.declarations (s :: ss)) (ts ++ us)

/-- An operand is an expression of every strength. -/
theorem Derives.loosest {e : Expr} {ts : List Token} (h : Derives (.expression .primary e) ts) :
    Derives (.expression .assignment e) ts := by
  have hfactor : Derives (.expression .factor e) ts := .tighter rfl (.tighter rfl (.tighter rfl h))
  have hequality : Derives (.expression .equality e) ts :=
    .tighter rfl (.tighter rfl (.tighter rfl hfactor))
  exact .tighter rfl (.tighter rfl (.tighter rfl hequality))

end Treewalk
