import Treewalk.Eval

/-!
# Evaluation of trees

Statements and expressions, by recursion on the nesting levels left: every node takes one, and a
call takes one more. Only loops run without such a bound; they have a number of rounds granted.
-/
namespace Treewalk.Eval

mutual

/-- Evaluates an expression. Operands go from left to right. -/
def expression (patience : Nat) : Nat → Site → Expr → Eval Value
  | 0, _, _ => throw .overflow
  | levels + 1, site, e =>
      match e with
      | .literal l => return l.value
      | .grouping inner => expression patience levels site inner
      | .name use => read site use
      | .this use => read site use
      | .assign use value => do
          let v ← expression patience levels site value
          assign site use v
          return v
      | .unary op token operand => do
          let v ← expression patience levels site operand
          ofOperator token (op.apply v)
      | .binary left op token right => do
          let v ← expression patience levels site left
          let v' ← expression patience levels site right
          ofOperator token (op.apply v v')
      | .logical left op _ right => do
          let v ← expression patience levels site left
          if op.decides v then return v else expression patience levels site right
      | .call callee paren arguments => do
          let f ← expression patience levels site callee
          let vs ← arguments.mapM (expression patience levels site)
          checkCall f paren vs.length
          atCall paren (call patience levels f vs)
      | .get object name => do
          let o ← expression patience levels site object
          property o name
      | .set object name value => do
          let o ← expression patience levels site object
          checkFields o name
          let v ← expression patience levels site value
          setProperty o name v
          return v
      | .super use method => superMethod site use method
      | .lambda function => newFunction ⟨function, site.scope, site.home, false⟩

/-- Calls a value with arguments that fit it. -/
def call (patience : Nat) : Nat → Value → List Value → Eval Value
  | 0, _, _ => throw .overflow
  | levels + 1, callee, arguments => callValue (statement patience levels) callee arguments

/-- Executes a statement. -/
def statement (patience : Nat) : Nat → Site → Stmt → Eval Unit
  | 0, _, _ => throw .overflow
  | levels + 1, site, s =>
      match s with
      | .expression e => do
          let _ ← expression patience levels site e
      | .print e => do
          let v ← expression patience levels site e
          modify fun w => { w with console := w.console.print (w.display v) }
      | .var _ name initial => do
          let v ←
            match initial with
            | some e => expression patience levels site e
            | none => pure .nil
          define site.scope name.lexeme v
      | .block body => do
          let scope ← newScope site.scope
          body.forM (statement patience levels { site with scope := scope })
      | .if condition thenBranch elseBranch => do
          let v ← expression patience levels site condition
          if v.truthy then statement patience levels site thenBranch
          else
            match elseBranch with
            | some s => statement patience levels site s
            | none => return
      | .while condition body increment =>
          let test := Value.truthy <$> expression patience levels site condition
          let advance :=
            match increment with
            | some e => discard (expression patience levels site e)
            | none => pure ()
          loop test (statement patience levels site body) advance patience
      | .break _ => throw (.signal .break)
      | .continue _ => throw (.signal .continue)
      | .return _ value => do
          let v ←
            match value with
            | some e => expression patience levels site e
            | none => pure .nil
          throw (.signal (.return v))
      | .function f => do
          let v ← newFunction ⟨f, site.scope, site.home, false⟩
          define site.scope f.displayName v
      | .class name parent methods => do
          let parent ← parent.mapM (superclass site)
          declareClass site name parent methods
      | .importModule _ name as => do
          let m ← importModule (2 * levels) (statement patience levels) site.home name
          define site.scope (importBinding name as) (.module m)

end

end Treewalk.Eval
