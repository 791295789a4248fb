import Treewalk.Proofs.Pieces.Scanning
import Treewalk.Proofs.Scopes.Reports

/-!
# Source nested too deeply

To read an operator in front of an operand takes one level and to resolve it takes two. So there are
texts that are read without error but not resolved to the end: those with a row of minus signs that
is more than half as long as there are levels.
-/
namespace Treewalk

/-- The token of a minus sign on the first line. -/
def minusToken : Token := ⟨.minus, "-", none, 1⟩

/-- The token of a semicolon on the first line. -/
def semicolonToken : Token := ⟨.semicolon, ";", none, 1⟩

/-- The token of a `break` on the first line. -/
def breakToken : Token := ⟨.break, "break", none, 1⟩

/-- `nil` with so many minus signs in front of it. -/
def Expr.negatedNil : Nat → Expr
  | 0 => .literal .nil
  | n + 1 => .unary .negate minusToken (negatedNil n)

/-- A `break` outside of a loop after so many minus signs. -/
def lateBreak (n : Nat) : String := String.ofList (List.replicate n '-' ++ "nil;break;".toList)

/-- The tokens of a late `break`. -/
def lateBreakTokens (n : Nat) : List Token :=
  List.replicate n minusToken ++ [⟨.nil, "nil", none, 1⟩, semicolonToken, breakToken, semicolonToken]

theorem scan_lateBreak (n : Nat) : scan (lateBreak n) = ⟨lateBreakTokens n, 1, []⟩ := by
  refine scan_eq_iff.mpr ?_
  unfold lateBreak lateBreakTokens
  rw [String.toList_ofList]
  induction n with
  | zero => exact scan_eq_iff.mp rfl
  | succ n ih => exact .cut (c := '-') rfl ih

namespace Parser
variable {levels endLine total : Nat} {rest rest' : List Token} {reports : Array Diagnostic} {e : Expr}

theorem unary_minus :
    unary (levels + 1) ⟨minusToken :: rest, endLine, total, reports⟩ =
      (unary levels >>= fun e => pure (.unary .negate minusToken e))
        ⟨rest, endLine, total, reports⟩ := rfl

/-- A row of minus signs takes a level for each. -/
theorem unary_negatedNil (n : Nat) :
    unary (levels + n + 2)
        ⟨List.replicate n minusToken ++ ⟨.nil, "nil", none, 1⟩ :: semicolonToken :: rest, endLine, total,
          reports⟩ =
      .ok (.negatedNil n) ⟨semicolonToken :: rest, endLine, total, reports⟩ := by
  induction n with
  | zero => rfl
  | succ n ih => exact unary_minus.trans (Watched.ok_bind ih rfl)

/-- An operand with a semicolon behind it. -/
theorem chain_operand (tier : Tier) {c : Cursor}
    (h : (match tier.tighter? with | some next => chain levels next | none => unary levels) c =
      .ok e ⟨semicolonToken :: rest, endLine, total, reports⟩) :
    chain (levels + 1) tier c = .ok e ⟨semicolonToken :: rest, endLine, total, reports⟩ := by
  cases tier <;> exact Watched.ok_bind h rfl

theorem expression_unary {c : Cursor}
    (h : unary levels c = .ok e ⟨semicolonToken :: rest, endLine, total, reports⟩) :
    expression (levels + 8) c = .ok e ⟨semicolonToken :: rest, endLine, total, reports⟩ := by
  have hfactor := chain_operand .factor h
  have hterm := chain_operand .term hfactor
  have hcomparison := chain_operand .comparison hterm
  have hequality := chain_operand .equality hcomparison
  have hand := chain_operand .and hequality
  have hor := chain_operand .or hand
  exact Watched.ok_bind hor rfl

/-- A statement that begins with a minus sign is an expression. -/
theorem declaration_minus
    (h : unary levels ⟨minusToken :: rest', endLine, total, reports⟩ =
      .ok e ⟨semicolonToken :: rest, endLine, total, reports⟩) :
    declaration (levels + 10) ⟨minusToken :: rest', endLine, total, reports⟩ =
      .ok [.expression e] ⟨rest, endLine, total, reports⟩ := by
  have hstatement : statement (levels + 9) ⟨minusToken :: rest', endLine, total, reports⟩ =
      .ok (.expression e) ⟨rest, endLine, total, reports⟩ :=
    (Watched.ok_bind (expression_unary h) rfl : expressionStatement (expression (levels + 8))
      ⟨minusToken :: rest', endLine, total, reports⟩ = _)
  have hforms : declarationForms (expression (levels + 9)) (block (levels + 9))
      (statement (levels + 9)) ⟨minusToken :: rest', endLine, total, reports⟩ =
      .ok (.expression e) ⟨rest, endLine, total, reports⟩ := by
    cases rest' <;> exact hstatement
  unfold declaration recovering
  rw [hforms]

end Parser

/-- A late `break` is read, if there is a level for each minus sign and a few more. -/
theorem parseTokens_lateBreak {levels n : Nat} (h : n + 13 ≤ levels) :
    parseTokens levels (lateBreakTokens (n + 1)) 1 =
      ⟨[.expression (.negatedNil (n + 1)), .break breakToken], []⟩ := by
  obtain ⟨more, rfl⟩ : ∃ more, levels = more + (n + 1) + 12 := ⟨levels - (n + 13), by omega⟩
  have htotal : (lateBreakTokens (n + 1)).length = n + 5 := by simp [lateBreakTokens]
  have hfirst : Parser.declaration (more + (n + 1) + 12) ⟨lateBreakTokens (n + 1), 1, n + 5, #[]⟩ =
      .ok [.expression (.negatedNil (n + 1))] ⟨[breakToken, semicolonToken], 1, n + 5, #[]⟩ :=
    Parser.declaration_minus (Parser.unary_negatedNil (n + 1))
  have hprogram : Parser.program (Parser.declaration (more + (n + 1) + 12)) (n + 6)
      ⟨lateBreakTokens (n + 1), 1, n + 5, #[]⟩ =
      .ok [.expression (.negatedNil (n + 1)), .break breakToken] ⟨[], 1, n + 5, #[]⟩ := by
    let item := Parser.declaration (more + (n + 1) + 12)
    change (item >>= fun first => Parser.program item (n + 5) >>= fun others =>
      pure (first ++ others)) _ = _
    exact Watched.ok_bind hfirst rfl
  unfold parseTokens Parser.perToken
  rw [Watched.get_bind, htotal, hprogram]

/-- Its first statement is not resolved to the end, if there are as many minus signs as levels. -/
theorem Resolve.expression_negatedNil {levels n : Nat} (h : levels ≤ n) (s : Scoping) :
    Resolve.expression levels (.negatedNil n) s = .error () s := by
  induction levels generalizing n with
  | zero => rfl
  | succ levels ih =>
      cases n with
      | zero => omega
      | succ n =>
          change EStateM.bind (Resolve.expression levels (.negatedNil n)) _ s = _
          unfold EStateM.bind
          rw [ih (Nat.le_of_succ_le_succ h)]

theorem Resolve.statement_negatedNil {levels n : Nat} (h : levels ≤ n) (s : Scoping) :
    Resolve.statement levels (.expression (.negatedNil n)) s = .error () s := by
  cases levels with
  | zero => rfl
  | succ levels =>
      change EStateM.bind (Resolve.expression levels (.negatedNil n)) _ s = _
      unfold EStateM.bind
      rw [Resolve.expression_negatedNil (Nat.le_of_succ_le h)]

/-- With enough levels to read it but not to resolve it, a late `break` is not come to. -/
theorem UnitText.lateBreak_notices {t : UnitText} {n : Nat} (hsource : t.source = lateBreak n)
    (hread : n + 12 ≤ t.levels) (hdeep : t.levels ≤ 2 * n) :
    t.Readable ∧ t.parsed.statements = [.expression (.negatedNil n), .break breakToken] ∧
      t.notices = [.error ⟨.line 1, .tooMuchNesting⟩] := by
  obtain ⟨n, rfl⟩ : ∃ m, n = m + 1 := ⟨n - 1, by omega⟩
  have hscan : scan t.source = ⟨lateBreakTokens (n + 1), 1, []⟩ := by
    rw [hsource, scan_lateBreak]
  have hparsed : t.parsed = ⟨[.expression (.negatedNil (n + 1)), .break breakToken], []⟩ := by
    unfold parsed
    rw [hscan]
    exact parseTokens_lateBreak (by omega)
  have hreadable : t.Readable := by
    unfold Readable
    rw [hscan, hparsed]
    rfl
  refine ⟨hreadable, by rw [hparsed], ?_⟩
  have hresolve : t.parsed.statements.mapM (Resolve.statement (t.levels / 2)) t.start =
      .error () t.start := by
    rw [hparsed, List.mapM_cons]
    change EStateM.bind (Resolve.statement _ _) _ _ = _
    unfold EStateM.bind
    rw [Resolve.statement_negatedNil (by omega)]
  rw [notices_eq hreadable, hresolve, hscan]
  rfl

end Treewalk
