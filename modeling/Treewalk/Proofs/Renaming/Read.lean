import Treewalk.Proofs.Scopes.Bare
import Treewalk.Proofs.Loops.WrittenOut

/-!
# Trees just read

No use in a tree just read has hops, so that nothing is taken away if they are.
-/
namespace Treewalk

namespace Node.Unresolved
variable {n m : Node} (h : n.Unresolved)
include h

theorem part (hm : m ∈ n.parts) : m.Unresolved := h.inward [] (.part hm)

theorem bare_use {use : NameUse} (hu : n.use? = some use) : use.bare = use := by
  have hnone := h.here.2 use hu
  obtain ⟨name, hops⟩ := use
  cases hnone
  rfl

end Node.Unresolved

mutual

/-- A tree just read has no hops. -/
theorem Expr.bare_eq_self : (e : Expr) → (Node.expr e).Unresolved → e.bare = e
  | .literal _, _ => rfl
  | .grouping e, h => by
      rw [Expr.bare, e.bare_eq_self (h.part (List.mem_cons_self ..))]
  | .name use, h => by rw [Expr.bare, h.bare_use rfl]
  | .assign use e, h => by
      rw [Expr.bare, h.bare_use rfl, e.bare_eq_self (h.part (List.mem_cons_self ..))]
  | .unary _ _ e, h => by
      rw [Expr.bare, e.bare_eq_self (h.part (List.mem_cons_self ..))]
  | .binary a _ _ b, h => by
      rw [Expr.bare, a.bare_eq_self (h.part (List.mem_cons_self ..)),
        b.bare_eq_self (h.part (by simp [Node.parts, Expr.parts]))]
  | .logical a _ _ b, h => by
      rw [Expr.bare, a.bare_eq_self (h.part (List.mem_cons_self ..)),
        b.bare_eq_self (h.part (by simp [Node.parts, Expr.parts]))]
  | .call callee _ es, h => by
      rw [Expr.bare, callee.bare_eq_self (h.part (List.mem_cons_self ..)),
        bareExprs_eq_self es fun e he => h.part (List.mem_cons_of_mem _ (List.mem_map_of_mem he))]
  | .get e _, h => by
      rw [Expr.bare, e.bare_eq_self (h.part (List.mem_cons_self ..))]
  | .set a _ b, h => by
      rw [Expr.bare, a.bare_eq_self (h.part (List.mem_cons_self ..)),
        b.bare_eq_self (h.part (by simp [Node.parts, Expr.parts]))]
  | .this use, h => by rw [Expr.bare, h.bare_use rfl]
  | .super use _, h => by rw [Expr.bare, h.bare_use rfl]
  | .lambda f, h => by
      rw [Expr.bare, f.bare_eq_self (h.part (List.mem_cons_self ..))]

theorem bareExprs_eq_self : (es : List Expr) → (∀ e ∈ es, (Node.expr e).Unresolved) →
    bareExprs es = es
  | [], _ => rfl
  | e :: es, h => by
      obtain ⟨he, hes⟩ := List.forall_mem_cons.mp h
      rw [bareExprs, e.bare_eq_self he, bareExprs_eq_self es hes]

theorem bareExpr?_eq_self : (e : Option Expr) → (∀ e' ∈ e, (Node.expr e').Unresolved) →
    bareExpr? e = e
  | none, _ => rfl
  | some e, h => by rw [bareExpr?, e.bare_eq_self (h e rfl)]

theorem Stmt.bare_eq_self : (s : Stmt) → (Node.stmt s).Unresolved → s.bare = s
  | .expression e, h => by
      rw [Stmt.bare, e.bare_eq_self (h.part (List.mem_cons_self ..))]
  | .print e, h => by
      rw [Stmt.bare, e.bare_eq_self (h.part (List.mem_cons_self ..))]
  | .var _ _ e, h => by
      rw [Stmt.bare, bareExpr?_eq_self e fun e' he => by
        cases he
        exact h.inward [] .initial]
  | .block ss, h => by
      rw [Stmt.bare, bareStmts_eq_self ss fun s hs => by
        obtain ⟨before, after, rfl⟩ := List.append_of_mem hs
        exact h.inward [] .block]
  | .if c s t, h => by
      rw [Stmt.bare, c.bare_eq_self (h.part (List.mem_cons_self ..)),
        s.bare_eq_self (h.part (by simp [Node.parts, Stmt.parts])),
        bareStmt?_eq_self t fun t' ht => by
          cases ht
          exact h.part (by simp [Node.parts, Stmt.parts])]
  | .while c s e, h => by
      rw [Stmt.bare, c.bare_eq_self (h.part (List.mem_cons_self ..)),
        s.bare_eq_self (h.part (by simp [Node.parts, Stmt.parts])),
        bareExpr?_eq_self e fun e' he => by
          cases he
          exact h.part (by simp [Node.parts, Stmt.parts])]
  | .break _, _ | .continue _, _ | .importModule _ _ _, _ => rfl
  | .return _ e, h => by
      rw [Stmt.bare, bareExpr?_eq_self e fun e' he => by
        cases he
        exact h.part (List.mem_cons_self ..)]
  | .function f, h => by
      rw [Stmt.bare, f.bare_eq_self (h.inward [] .declared)]
  | .class _ none fs, h => by
      rw [Stmt.bare, bareFunctions_eq_self fs fun f hf => h.inward [] (.method hf)]
      rfl
  | .class _ (some use) fs, h => by
      have hname : (Node.expr (.name use)).Unresolved :=
        h.part (List.mem_cons_self ..)
      rw [Stmt.bare, bareFunctions_eq_self fs fun f hf => h.inward [] (.inherited hf),
        Option.map_some, hname.bare_use rfl]

theorem bareStmts_eq_self : (ss : List Stmt) → (∀ s ∈ ss, (Node.stmt s).Unresolved) →
    bareStmts ss = ss
  | [], _ => rfl
  | s :: ss, h => by
      obtain ⟨hs, hss⟩ := List.forall_mem_cons.mp h
      rw [bareStmts, s.bare_eq_self hs, bareStmts_eq_self ss hss]

theorem bareStmt?_eq_self : (s : Option Stmt) → (∀ s' ∈ s, (Node.stmt s').Unresolved) →
    bareStmt? s = s
  | none, _ => rfl
  | some s, h => by rw [bareStmt?, s.bare_eq_self (h s rfl)]

theorem FunctionDecl.bare_eq_self : (f : FunctionDecl) → (Node.function f).Unresolved → f.bare = f
  | .mk _ _ ss, h => by
      rw [FunctionDecl.bare, bareStmts_eq_self ss fun s hs => by
        obtain ⟨before, after, rfl⟩ := List.append_of_mem hs
        exact h.inward [] (.body rfl)]

theorem bareFunctions_eq_self : (fs : List FunctionDecl) →
    (∀ f ∈ fs, (Node.function f).Unresolved) → bareFunctions fs = fs
  | [], _ => rfl
  | f :: fs, h => by
      obtain ⟨hf, hfs⟩ := List.forall_mem_cons.mp h
      rw [bareFunctions, f.bare_eq_self hf, bareFunctions_eq_self fs hfs]

end

end Treewalk
