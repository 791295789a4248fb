import Treewalk.Proofs.Scopes.Words

/-!
# Tokens in trees

What a node keeps of the text does not change when names are resolved: every token in a tree of an
accepted unit is one of those of its text, of the kind the grammar asks for, and so are the values of
its literals.
-/
namespace Treewalk

namespace Node
variable {ts : List Token}

@[simp] theorem tokens_bare (n : Node) : n.bare.tokens = n.tokens := by
  cases n with
  | expr e => cases e <;> simp only [bare, Expr.bare, tokens, NameUse.bare]
  | function f => simp only [bare, tokens, FunctionDecl.name_bare, FunctionDecl.parameters_bare]
  | stmt s =>
      cases s with
      | «class» name superclass methods =>
          cases superclass <;> simp only [bare, Stmt.bare, tokens, Option.map, NameUse.bare,
            Option.toList, List.map]
      | _ => simp only [bare, Stmt.bare, tokens]

@[simp] theorem kinded_bare (n : Node) : n.bare.Kinded ↔ n.Kinded := by
  cases n with
  | expr e => cases e <;> simp only [bare, Expr.bare, Kinded, NameUse.bare]
  | function f => simp only [bare, Kinded, FunctionDecl.name_bare, FunctionDecl.parameters_bare]
  | stmt s =>
      cases s with
      | «class» name superclass methods =>
          cases superclass <;> simp [bare, Stmt.bare, Kinded, NameUse.bare]
      | _ => simp only [bare, Stmt.bare, Kinded]

@[simp] theorem valued_bare (n : Node) : n.bare.Valued ts ↔ n.Valued ts := by
  cases n with
  | expr e => cases e <;> simp only [bare, Expr.bare, Valued]
  | function f => simp only [bare, Valued]
  | stmt s => simp only [bare, Valued]

theorem WrittenIn.of_bare {n n' : Node} (h : n.WrittenIn ts) (hbare : n.bare = n'.bare) :
    n'.WrittenIn ts where
  mem := by
    rw [← tokens_bare, ← hbare, tokens_bare]
    exact h.mem
  kinded := n'.kinded_bare.mp (hbare ▸ n.kinded_bare.mpr h.kinded)
  valued := n'.valued_bare.mp (hbare ▸ n.valued_bare.mpr h.valued)

end Node

namespace UnitText
variable {t : UnitText}

/-- Every tree of an accepted unit is written with the tokens of its text. -/
theorem written (h : t.unit.ok = true) {st : Stmt} (hst : st ∈ t.unit.statements) {q : Position}
    (hq : Within ⟨[], .stmt st⟩ q) : q.node.WrittenIn (scan t.source).tokens := by
  obtain ⟨st', hst', hbare⟩ := exists_mem_of_map (bare_statements h).symm hst
  obtain ⟨q', hq', halike⟩ := hq.alike (p := ⟨[], .stmt st'⟩) ⟨.nil, congrArg Node.stmt hbare⟩
  have hread := parsed_allRead (reports_nil h) st' hst'
  exact (hread.within hq').written.of_bare halike.node

end UnitText
end Treewalk
