import Treewalk.Proofs.Control.Legal
import Treewalk.Proofs.Scanning.Names
import Treewalk.Proofs.Scopes.Written

/-!
# Names that imports bind

A name can be referred to if it is scanned as an identifier by itself. What an import in an accepted
unit binds is a text of letters, digits and underscores, and it can be referred to unless it comes from
a string and is a reserved word or begins with a digit: the check of import names asks for nothing more.
-/
namespace Treewalk

/-! ### What the check of a name asks for -/

/-- An identifier names the module that it spells. -/
theorem importedModule_of_identifier {source : String} {name : Token}
    (hname : name ∈ (scan source).tokens) (hkind : name.kind = .identifier) :
    importedModule name = name.lexeme := by
  obtain ⟨position, hat⟩ := mem_scan_iff.mp hname
  have hno := hat.spelling.literal_of_ne_string (by rw [hkind]; decide)
  unfold importedModule
  split
  · next s hs => exact absurd hs (hno s)
  · rfl

/-- A name that may be imported without an alias. -/
theorem plain_of_importName {x : String} (h : importNameError? x false = none) :
    ∃ c cs, x.toList = c :: cs ∧ ∀ d ∈ c :: cs, isNamePart d = true := by
  unfold importNameError? at h
  split at h
  · cases h
  · next c cs hx =>
      refine ⟨c, cs, hx, fun d hd => ?_⟩
      dsimp only at h
      split at h
      · cases h
      · next hgood =>
          split at h
          · cases h
          · split at h
            · cases h
            · split at h
              · cases h
              · next hseparators =>
                  have hnot : isImportSeparator d = false := by
                    by_contra hsep
                    refine hseparators (Bool.and_eq_true_iff.mpr ⟨rfl, ?_⟩)
                    exact List.any_eq_true.mpr ⟨d, hd, Bool.not_eq_false _ ▸ hsep⟩
                  have hallowed : (isPlain d || isImportPunctuation d) = true := by
                    by_contra hbad
                    refine hgood (List.any_eq_true.mpr ⟨d, hd, ?_⟩)
                    rw [Bool.not_eq_true] at hbad
                    rw [hbad]
                    rfl
                  unfold isImportSeparator at hnot
                  unfold isPlain isImportPunctuation Char.isAlphanum at hallowed
                  unfold isNamePart isNameStart
                  simp only [Bool.or_eq_false_iff, beq_eq_false_iff_ne] at hnot
                  simp only [Bool.or_eq_true_iff, beq_iff_eq] at hallowed ⊢
                  tauto

/-- An import whose name is not reported. -/
def Node.NamesModule : Node → Prop
  | .stmt (.importModule _ name as) => importNameError? (importedModule name) as.isSome = none
  | _ => True

namespace Resolve

/-- Resolution of any tree reports the imports whose names are not allowed. -/
structure LevelNames (levels : Nat) : Prop where
  expression : ∀ e, Checks (fun _ _ e' => (Node.expr e').Every Node.NamesModule)
    (expression levels e)
  statement : ∀ st, Checks (fun _ _ st' => (Node.stmt st').Every Node.NamesModule)
    (statement levels st)
  functionBody : ∀ context f, context ≠ .none →
    Checks (fun _ _ f' => (Node.function f').Every Node.NamesModule) (functionBody levels context f)
  method : ∀ f, Checks (fun _ _ f' => (Node.function f').Every Node.NamesModule) (method levels f)

namespace LevelNames
variable {levels : Nat}

/-- All inside a node has a property if it has it itself and its parts do. -/
theorem every {n : Node} (h : n.NamesModule) (hi : ∀ m ∈ n.inside, m.Every Node.NamesModule) :
    n.Every Node.NamesModule := .intro h hi

theorem one {n m : Node} (h : n.NamesModule) (hn : n.inside = [m]) (hm : m.Every Node.NamesModule) :
    n.Every Node.NamesModule := .intro h (hn ▸ List.forall_mem_singleton.mpr hm)

theorem two {n m m' : Node} (h : n.NamesModule) (hn : n.inside = [m, m'])
    (hm : m.Every Node.NamesModule) (hm' : m'.Every Node.NamesModule) : n.Every Node.NamesModule :=
  .intro h (hn ▸ List.forall_mem_cons.mpr ⟨hm, List.forall_mem_singleton.mpr hm'⟩)

theorem leaf {n : Node} (h : n.NamesModule) (hn : n.inside = []) : n.Every Node.NamesModule :=
  .intro h (hn ▸ List.forall_mem_nil _)

theorem expression_succ (ih : LevelNames levels) (e : Expr) :
    Checks (fun _ _ e' => (Node.expr e').Every Node.NamesModule)
      (Resolve.expression (levels + 1) e) := by
  unfold Resolve.expression
  cases e with
  | literal value => exact .pure fun _ _ => leaf trivial rfl
  | grouping inner =>
      exact .bind (ih.expression inner) fun _ => .pure fun _ _ h => one trivial rfl h
  | name use => exact .bind (.read use) fun _ => .pure fun _ _ _ => leaf trivial rfl
  | assign use value =>
      refine .bind (ih.expression value) fun value => ?_
      refine .checking (R := fun _ _ => True) (fun _ _ => trivial) ?_
      exact .bind (.lookUp .assign use) fun _ => .pure fun _ _ _ _ h => one trivial rfl h
  | unary op token operand =>
      exact .bind (ih.expression operand) fun _ => .pure fun _ _ h => one trivial rfl h
  | binary left op token right | logical left op token right =>
      exact .bind (ih.expression left) fun _ => .bind (ih.expression right) fun _ =>
        .pure fun _ _ hr hl => two trivial rfl hl hr
  | call callee paren arguments =>
      refine .bind (ih.expression callee) fun callee => ?_
      refine .bind (.mapM fun e _ => ih.expression e) fun arguments => .pure fun _ _ has hc => ?_
      refine every trivial (List.forall_mem_cons.mpr ⟨hc, fun m hm => ?_⟩)
      obtain ⟨e, he, rfl⟩ := List.mem_map.mp hm
      exact has e he
  | get object name =>
      exact .bind (ih.expression object) fun _ => .pure fun _ _ h => one trivial rfl h
  | set object name value =>
      refine .bind (ih.expression value) fun value => .bind (.checkFieldWrite object name) fun _ => ?_
      exact .bind (ih.expression object) fun _ => .pure fun _ _ ho _ hv => two trivial rfl ho hv
  | this use => exact .this fun _ _ _ _ => leaf trivial rfl
  | super use method =>
      exact .bind (.checkSuper _) fun _ => .bind (.lookUp .super use) fun _ =>
        .pure fun _ _ _ _ => leaf trivial rfl
  | lambda function =>
      exact .bind (ih.functionBody .lambda function (by decide)) fun _ => .pure fun _ _ h =>
        one trivial rfl h

theorem statement_succ (ih : LevelNames levels) (st : Stmt) :
    Checks (fun _ _ st' => (Node.stmt st').Every Node.NamesModule)
      (Resolve.statement (levels + 1) st) := by
  have hoption : ∀ {o : Option Expr}, (∀ e ∈ o, (Node.expr e).Every Node.NamesModule) →
      ∀ m ∈ o.toList.map Node.expr, m.Every Node.NamesModule := by
    intro o ho m hm
    obtain ⟨e, he, rfl⟩ := List.mem_map.mp hm
    exact ho e (Option.mem_toList.mp he)
  unfold Resolve.statement
  cases st with
  | expression e | print e =>
      exact .bind (ih.expression e) fun _ => .pure fun _ _ h => one trivial rfl h
  | var mutability name initial =>
      refine .bind (.declare name name.lexeme) fun _ => ?_
      refine .bind (.optional fun e _ => .initializing (ih.expression e)) fun initial => ?_
      exact .bind (.define name.lexeme mutability) fun _ =>
        .pure fun _ _ _ hinitial _ => every trivial (hoption hinitial)
  | block body =>
      refine .bind (.inScope (.mapM fun st _ => ih.statement st)) fun _ =>
        .pure fun _ _ h => every trivial fun m hm => ?_
      obtain ⟨st, hst, rfl⟩ := List.mem_map.mp hm
      exact h st hst
  | «if» condition thenBranch elseBranch =>
      refine .bind (ih.expression condition) fun _ => .bind (ih.statement thenBranch) fun _ => ?_
      refine .bind (.optional fun st _ => ih.statement st) fun _ => .pure fun _ _ he ht hc => ?_
      refine every trivial (List.forall_mem_cons.mpr ⟨hc, List.forall_mem_cons.mpr ⟨ht, ?_⟩⟩)
      intro m hm
      obtain ⟨st, hst, rfl⟩ := List.mem_map.mp hm
      exact he st (Option.mem_toList.mp hst)
  | «while» condition body increment =>
      have hinside : Checks (fun _ _ st' => (Node.stmt st').Every Node.NamesModule) (do
          let condition ← Resolve.expression levels condition
          let body ← Resolve.statement levels body
          return .while condition body (← increment.mapM (Resolve.expression levels))) := by
        refine .bind (ih.expression condition) fun _ => .bind (ih.statement body) fun _ => ?_
        refine .bind (.optional fun e _ => ih.expression e) fun _ => .pure fun _ _ hi hb hc => ?_
        exact every trivial
          (List.forall_mem_cons.mpr ⟨hc, List.forall_mem_cons.mpr ⟨hb, hoption hi⟩⟩)
      exact .inLoop hinside
  | «break» keyword | «continue» keyword =>
      exact .checking (R := fun _ _ => True) (fun _ _ => trivial)
        (.pure fun _ _ _ => leaf trivial rfl)
  | «return» keyword value =>
      refine .bind (R := fun _ _ _ => True) (.check _ _ fun _ _ => trivial) fun _ => ?_
      refine .checking (R := fun _ _ => True) (fun _ _ => trivial) ?_
      exact .bind (.optional fun e _ => ih.expression e) fun _ => .pure fun _ _ h _ _ =>
        every trivial (hoption h)
  | function declaration =>
      have hbody : Checks (fun _ _ st' => (Node.stmt st').Every Node.NamesModule) (do
          return .function (← Resolve.functionBody levels .function declaration)) :=
        .bind (ih.functionBody .function declaration (by decide)) fun _ =>
          .pure fun _ _ h => one trivial rfl h
      cases hname : declaration.name with
      | none =>
          simp only [hname]
          exact hbody
      | some name =>
          simp only [hname]
          exact .bind (.bindName name name.lexeme) fun _ => hbody.weaken fun _ _ _ h _ => h
  | «class» name superclass methods =>
      have hmethods : Checks (fun _ _ fs => ∀ m ∈ fs.map Node.function, m.Every Node.NamesModule)
          (methods.mapM (Resolve.method levels)) := by
        refine (Checks.mapM fun f _ => ih.method f).weaken fun _ _ fs h m hm => ?_
        obtain ⟨f, hf, rfl⟩ := List.mem_map.mp hm
        exact h f hf
      cases superclass with
      | none =>
          refine .inClass (.bind (.bindName name name.lexeme) fun _ => ?_)
          exact .bind (.inScope hmethods) fun _ => .pure fun _ _ h _ => every trivial h
      | some superclass =>
          refine .inClass (.bind (.bindName name name.lexeme) fun _ => .reporting ?_)
          exact .bind (.read superclass) fun _ => .bind (.inScope (.inScope hmethods)) fun _ =>
            .pure fun _ _ h _ _ => every trivial (List.forall_mem_cons.mpr ⟨leaf trivial rfl, h⟩)
  | importModule keyword name as =>
      cases herror : importNameError? (importedModule name) as.isSome with
      | some error =>
          simp only [herror]
          exact .bind (.report (P := fun _ _ _ => False) _ _) fun _ => .pure fun _ _ h => h.elim
      | none =>
          simp only [herror]
          exact .bind (.bindName _ _) fun _ => .pure fun _ _ _ => leaf herror rfl

theorem functionBody_succ (ih : LevelNames levels) {context : FunctionContext} (f : FunctionDecl)
    (hcontext : context ≠ .none) :
    Checks (fun _ _ f' => (Node.function f').Every Node.NamesModule)
      (Resolve.functionBody (levels + 1) context f) := by
  obtain ⟨name, parameters, body⟩ := f
  have hbody : Checks (fun _ _ f' => (Node.function f').Every Node.NamesModule)
      (Resolve.inScope [] (do
        parameters.forM fun p => Resolve.bind p p.lexeme
        return FunctionDecl.mk name parameters (← body.mapM (Resolve.statement levels)))) := by
    refine .inScope (.bind (.forM (fun p => .bindName p p.lexeme) parameters) fun _ => ?_)
    refine .bind (.mapM fun st _ => ih.statement st) fun _ => .pure fun _ _ h _ => ?_
    refine every trivial fun m hm => ?_
    obtain ⟨st, hst, rfl⟩ := List.mem_map.mp hm
    exact h st hst
  exact .inFunction hcontext hbody

end LevelNames

theorem names (levels : Nat) : LevelNames levels := by
  induction levels with
  | zero =>
      exact
        { expression := fun _ => .throw ()
          statement := fun _ => .throw ()
          functionBody := fun _ _ _ => .throw ()
          method := fun _ => .throw () }
  | succ levels ih =>
      exact
        { expression := ih.expression_succ
          statement := ih.statement_succ
          functionBody := fun _ f h => ih.functionBody_succ f h
          method := fun f => ih.functionBody _ f (methodContext_ne f) }

end Resolve

/-! ### Imports of accepted units -/

namespace UnitText
variable {t : UnitText} {st : Stmt}

/-- No import of an accepted unit has a name that is reported. -/
theorem namesModule (h : t.unit.ok = true) :
    ∀ st ∈ t.unit.statements, (Node.stmt st).Every Node.NamesModule :=
  checked h (.mapM fun st _ => (Resolve.names (t.levels / 2)).statement st)

end UnitText

/-- What an import in an accepted unit binds is made of letters, digits and underscores. It can be
referred to unless the name is that of a string without an alias and is a reserved word or begins with
a digit. -/
theorem import_binding_usable {t : UnitText} (h : t.unit.ok = true) {st : Stmt}
    (hst : st ∈ t.unit.statements) {frames : List Frame} {keyword name : Token} {as : Option Token}
    (hq : Within ⟨[], .stmt st⟩ ⟨frames, .stmt (.importModule keyword name as)⟩) :
    ∃ c cs, (importBinding name as).toList = c :: cs ∧ (∀ d ∈ c :: cs, isNamePart d = true) ∧
      (IsName (importBinding name as) ↔
        ¬(name.kind = .string ∧ as = none ∧
          (c.isDigit = true ∨ ¬Unreserved (importBinding name as)))) := by
  have hwritten := t.written h hst hq
  obtain ⟨-, hkind, has⟩ := hwritten.kinded
  have hname : name ∈ (scan t.source).tokens := hwritten.mem name (by simp [Node.tokens])
  have hcheck : importNameError? (importedModule name) as.isSome = none :=
    (t.namesModule h st hst).within hq
  have husable : IsName (importBinding name as) → ¬(name.kind = .string ∧ as = none) →
      ∃ c cs, (importBinding name as).toList = c :: cs ∧ (∀ d ∈ c :: cs, isNamePart d = true) ∧
        (IsName (importBinding name as) ↔
          ¬(name.kind = .string ∧ as = none ∧
            (c.isDigit = true ∨ ¬Unreserved (importBinding name as)))) := by
    intro hisName hother
    obtain ⟨c, cs, hx, hc, hcs, -⟩ := isName_iff.mp hisName
    exact ⟨c, cs, hx, List.forall_mem_cons.mpr ⟨isNamePart_of_start hc, hcs⟩,
      fun _ hno => hother ⟨hno.1, hno.2.1⟩, fun _ => hisName⟩
  -- Aliases and bare names were scanned as names; of a string only the characters were checked.
  cases as with
  | some other =>
      have hother : other ∈ (scan t.source).tokens := hwritten.mem other (by simp [Node.tokens])
      exact husable (isName_of_mem_scan hother (has other rfl)) fun hno =>
        Option.some_ne_none _ hno.2
  | none =>
      rcases hkind with hkind | hkind
      · refine husable ?_ fun hno => by simp [hkind] at hno
        have himported : importedModule name = name.lexeme := importedModule_of_identifier hname hkind
        change IsName (importedModule name)
        rw [himported]
        exact isName_of_mem_scan hname hkind
      · obtain ⟨c, cs, hx, hcs⟩ := plain_of_importName hcheck
        refine ⟨c, cs, hx, hcs, (isName_iff_of_parts hx hcs).trans ?_⟩
        simp only [hkind, true_and]
        exact Iff.rfl

/-- The kind and the text of a name, where statements are its import without an alias. -/
def importOf? : List Stmt → Option (TokenKind × String)
  | [.importModule _ name none] => some (name.kind, importedModule name)
  | _ => none

theorem eq_of_importOf? {ss : List Stmt} {kind : TokenKind} {x : String}
    (h : importOf? ss = some (kind, x)) :
    ∃ keyword name, ss = [.importModule keyword name none] ∧ name.kind = kind ∧
      importBinding name none = x := by
  unfold importOf? at h
  split at h
  · next keyword name =>
      obtain ⟨hkind, hx⟩ := Prod.mk.inj (Option.some.inj h)
      exact ⟨keyword, name, rfl, hkind, hx⟩
  · cases h

/-- A string may name a module like a reserved word, and no name is read as the one that it binds. -/
theorem import_binding_usable_string :
    let t : UnitText := { levels := 100, file := "<lox>", source := "import \x22while\x22;" }
    t.unit.ok = true ∧ ∃ st ∈ t.unit.statements, ∃ keyword name,
      Within ⟨[], .stmt st⟩ ⟨[], .stmt (.importModule keyword name none)⟩ ∧
      importBinding name none = "while" ∧ ¬IsName "while" := by
  intro t
  have hok : t.unit.ok = true := by decide +kernel
  have himport : importOf? t.unit.statements = some (.string, "while") := by decide +kernel
  obtain ⟨keyword, name, hstatements, hkind, hbinding⟩ := eq_of_importOf? himport
  have hmem := hstatements.symm ▸ List.mem_singleton_self (Stmt.importModule keyword name none)
  obtain ⟨c, cs, -, -, husable⟩ := import_binding_usable hok hmem .refl
  rw [hbinding] at husable
  have hreserved : ¬Unreserved "while" := by
    unfold Unreserved
    decide
  have hnot : ¬IsName "while" := fun h => husable.mp h ⟨hkind, rfl, .inr hreserved⟩
  exact ⟨hok, _, hmem, keyword, name, .refl, hbinding, hnot⟩

end Treewalk
