import Treewalk.Proofs.Scopes.Constants

/-!
# Names in resolved trees

Whatever a unit declares or changes by name has an identifier as its name. Only an import can bind a
reserved word, since a string may name the module.
-/
namespace Treewalk

/-- The names that a node declares or changes, unless it is an import. -/
def Node.changes : Node → List String
  | .stmt (.var _ name _) | .stmt (.class name _ _) | .expr (.set _ name _) => [name.lexeme]
  | .stmt (.function f) => [f.displayName]
  | .expr (.assign use _) => [use.name.lexeme]
  | .function f => f.parameters.map Token.lexeme
  | _ => []

@[simp] theorem Node.changes_bare (n : Node) : n.bare.changes = n.changes := by
  cases n with
  | expr e => cases e <;> simp only [bare, Expr.bare, changes, NameUse.bare]
  | stmt s => cases s <;> simp only [bare, Stmt.bare, changes, FunctionDecl.displayName_bare]
  | function f => simp only [bare, changes, FunctionDecl.parameters_bare]

theorem Node.Formed.changes {n : Node} (h : n.Formed) :
    ∀ x ∈ n.changes, TokenKind.ofWord x = .identifier := by
  cases n with
  | expr e =>
      cases e with
      | assign use value => exact List.forall_mem_singleton.mpr h
      | set object name value => exact List.forall_mem_singleton.mpr h
      | _ => exact fun _ hx => nomatch hx
  | stmt s =>
      cases s with
      | var mutability name initial => exact List.forall_mem_singleton.mpr h
      | «class» name superclass methods => exact List.forall_mem_singleton.mpr h
      | function f => exact List.forall_mem_singleton.mpr h.2
      | _ => exact fun _ hx => nomatch hx
  | function f => exact List.forall_mem_map.mpr h

/-- All that is declared or changed inside a node has an identifier as its name. -/
def Node.Named (n : Node) : Prop :=
  Everywhere (fun q => ∀ x ∈ q.node.changes, TokenKind.ofWord x = .identifier) ⟨[], n⟩

namespace Node.Named
variable {n : Node}

theorem here (h : n.Named) : ∀ x ∈ n.changes, TokenKind.ofWord x = .identifier := Everywhere.here h

theorem within (frames : List Frame) {q : Position} (h : n.Named) (hq : Within ⟨frames, n⟩ q) :
    q.node.Named := by
  have hall : Everywhere (fun q => ∀ x ∈ q.node.changes, TokenKind.ofWord x = .identifier) q :=
    (Everywhere.anywhere (P := fun n => ∀ x ∈ n.changes, TokenKind.ofWord x = .identifier) h
      frames).within hq
  exact Everywhere.anywhere (P := fun n => ∀ x ∈ n.changes, TokenKind.ofWord x = .identifier)
    hall []

theorem inner (frames : List Frame) {q : Position} (h : n.Named) (hi : Inner ⟨frames, n⟩ q) :
    q.node.Named := h.within frames (.single hi)

theorem part {m : Node} (h : n.Named) (hm : m ∈ n.parts) : m.Named :=
  h.inner [] (.part hm)

theorem body {f : FunctionDecl} (h : (Node.function f).Named) :
    ∀ s ∈ f.body, (Node.stmt s).Named := by
  intro s hs
  obtain ⟨before, after, hbody⟩ := List.append_of_mem hs
  exact h.inner [] (.body hbody)

theorem block {body : List Stmt} (h : (Node.stmt (.block body)).Named) :
    ∀ s ∈ body, (Node.stmt s).Named := by
  intro s hs
  obtain ⟨before, after, rfl⟩ := List.append_of_mem hs
  exact h.inner [] .block

theorem method {name : Token} {superclass : Option NameUse} {methods : List FunctionDecl}
    (h : (Node.stmt (.class name superclass methods)).Named) :
    ∀ f ∈ methods, (Node.function f).Named := by
  intro f hf
  cases superclass with
  | none => exact h.inner [] (.method hf)
  | some use => exact h.inner [] (.inherited hf)

end Node.Named

/-- The function that does nothing. -/
theorem Node.named_default : (Node.function default).Named := by
  refine Everywhere.intro (fun _ hx => nomatch hx) fun q hq => ?_
  cases hq with
  | part hm => cases hm
  | @body _ _ before after s hbody => cases before <;> cases hbody

namespace UnitText
variable {t : UnitText} {st : Stmt}

/-- Every node of an accepted unit is as it was read, but for hops. -/
theorem formed (h : t.unit.ok = true) (hst : st ∈ t.unit.statements) {q : Position}
    (hq : Within ⟨[], .stmt st⟩ q) : ∃ n : Node, n.Formed ∧ n.bare = q.node.bare := by
  obtain ⟨st', hst', hbare⟩ := exists_mem_of_map (bare_statements h).symm hst
  obtain ⟨q', hq', halike⟩ :=
    hq.alike (p := ⟨[], .stmt st'⟩) ⟨.nil, congrArg Node.stmt hbare⟩
  exact ⟨q'.node, (unresolved h st' hst' q' hq').1, halike.node⟩

theorem named (h : t.unit.ok = true) (hst : st ∈ t.unit.statements) : (Node.stmt st).Named := by
  intro q hq
  obtain ⟨n, hformed, hbare⟩ := formed h hst hq
  have hchanges : n.changes = q.node.changes := by
    rw [← Node.changes_bare, hbare, Node.changes_bare]
  exact hchanges ▸ hformed.changes

end UnitText
end Treewalk
