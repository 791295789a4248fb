import Mathlib.Data.Set.Function
import Treewalk.Proofs.Outlines.Numbers
import Treewalk.Proofs.Scanning.Names
import Treewalk.Proofs.Scopes.Written

/-!
# Expressions read back from their outlines

The outline of an expression without strings and functions is the text of one form only, and from this
form the expression can be read back, with its finite numbers if their texts tell them apart. So two
such expressions with the same outline differ in nothing but the lines of their tokens.
-/
namespace Treewalk

/-! ### Lines -/

/-- A token without its line. -/
def Token.lineless (t : Token) : Token := { t with line := 0 }

/-- A use of a name without its line. -/
def NameUse.lineless (use : NameUse) : NameUse := { use with name := use.name.lineless }

theorem NameUse.lineless_eq {use : NameUse} (h : use.hops = none) :
    use.lineless = { name := use.name.lineless } := by
  unfold lineless
  rw [h]

mutual

/-- An expression without the lines of its tokens, those of its functions apart. -/
def Expr.lineless : Expr → Expr
  | .literal value => .literal value
  | .grouping inner => .grouping inner.lineless
  | .name use => .name use.lineless
  | .assign use value => .assign use.lineless value.lineless
  | .unary op token operand => .unary op token.lineless operand.lineless
  | .binary left op token right => .binary left.lineless op token.lineless right.lineless
  | .logical left op token right => .logical left.lineless op token.lineless right.lineless
  | .call callee paren arguments => .call callee.lineless paren.lineless (linelessExprs arguments)
  | .get object name => .get object.lineless name.lineless
  | .set object name value => .set object.lineless name.lineless value.lineless
  | .this use => .this use.lineless
  | .super use method => .super use.lineless method.lineless
  | .lambda function => .lambda function

def linelessExprs : List Expr → List Expr
  | [] => []
  | e :: es => e.lineless :: linelessExprs es

end

/-! ### Forms of expressions -/

section
variable (indent : String) (depth : Nat)

mutual

/-- What the outline of an expression is made of, a function taken for a word. -/
def Expr.form : Expr → Form
  | .literal value => .word value.outline.toList
  | .grouping inner => .form "par".toList [inner.form]
  | .name use => .word use.name.lexeme.toList
  | .assign use value =>
      .form "let".toList [.word use.name.lexeme.toList, .word "=".toList, value.form]
  | .unary _ token operand => .form token.lexeme.toList [operand.form]
  | .binary left _ token right => .form token.lexeme.toList [left.form, right.form]
  | .logical left _ token right => .form token.lexeme.toList [left.form, right.form]
  | .call callee _ arguments => .form "call".toList (callee.form :: formExprs arguments)
  | .get object name => .form ".".toList [object.form, .word name.lexeme.toList]
  | .set object name value => .form ".=".toList [object.form, .word name.lexeme.toList, value.form]
  | .this _ => .word "this".toList
  | .super _ method => .form "super".toList [.word method.lexeme.toList]
  | .lambda function => .word (function.outline indent depth).toList

def formExprs : List Expr → List Form
  | [] => []
  | e :: es => e.form :: formExprs es

end

mutual

/-- The outline of an expression is the text of its form. -/
theorem Expr.toList_outline (e : Expr) :
    (e.outline indent depth).toList = (e.form indent depth).text := by
  cases e with
  | literal | name | this | lambda => rfl
  | grouping inner =>
      rw [Expr.outline, Expr.form]
      exact toList_outlineForm (congrArg (fun cs => [cs]) (Expr.toList_outline inner))
  | assign use value =>
      rw [Expr.outline, Expr.form]
      refine toList_outlineForm ?_
      simp only [List.map_cons, List.map_nil, Expr.toList_outline value, Form.text]
  | unary op token operand =>
      rw [Expr.outline, Expr.form]
      exact toList_outlineForm (congrArg (fun cs => [cs]) (Expr.toList_outline operand))
  | binary left op token right | logical left op token right =>
      rw [Expr.outline, Expr.form]
      refine toList_outlineForm ?_
      simp only [List.map_cons, List.map_nil, Expr.toList_outline left, Expr.toList_outline right]
  | call callee paren arguments =>
      rw [Expr.outline, Expr.form]
      refine toList_outlineForm ?_
      rw [List.map_cons, List.map_cons, Expr.toList_outline callee, toList_outlineExprs arguments]
  | get object name =>
      rw [Expr.outline, Expr.form]
      refine toList_outlineForm ?_
      simp only [List.map_cons, List.map_nil, Expr.toList_outline object, Form.text]
  | set object name value =>
      rw [Expr.outline, Expr.form]
      refine toList_outlineForm ?_
      simp only [List.map_cons, List.map_nil, Expr.toList_outline object, Expr.toList_outline value, Form.text]
  | super use method =>
      rw [Expr.outline, Expr.form]
      exact toList_outlineForm rfl

theorem toList_outlineExprs (es : List Expr) :
    (outlineExprs indent depth es).map String.toList =
      (formExprs indent depth es).map Form.text := by
  cases es with
  | nil => rfl
  | cons e es =>
      rw [outlineExprs, formExprs, List.map_cons, List.map_cons, Expr.toList_outline e,
        toList_outlineExprs es]

end
end

/-! ### Reading back -/

/-- The expression that a word stands for, with a value for words that are numbers. -/
def Expr.ofWord (value : List Char → Float) (w : List Char) : Expr :=
  if w = "nil".toList then .literal .nil
  else if w = "true".toList then .literal (.bool true)
  else if w = "false".toList then .literal (.bool false)
  else if w = "this".toList then .this { name := ⟨.this, "this", none, 0⟩ }
  else if w.all isNamePart then .name { name := ⟨.identifier, String.ofList w, none, 0⟩ }
  else .literal (.number (value w))

/-- The expression that a form stands for, made of what its parts stand for. -/
def Expr.ofParts (head : List Char) (parts : List Expr) : Expr :=
  match String.ofList head, parts with
  | "par", [inner] => .grouping inner
  | "let", [.name use, _, value] => .assign use value
  | "!", [operand] => .unary .not ⟨.bang, "!", none, 0⟩ operand
  | "-", [operand] => .unary .negate ⟨.minus, "-", none, 0⟩ operand
  | "+", [left, right] => .binary left .add ⟨.plus, "+", none, 0⟩ right
  | "-", [left, right] => .binary left .subtract ⟨.minus, "-", none, 0⟩ right
  | "*", [left, right] => .binary left .multiply ⟨.star, "*", none, 0⟩ right
  | "/", [left, right] => .binary left .divide ⟨.slash, "/", none, 0⟩ right
  | "%", [left, right] => .binary left .remainder ⟨.percent, "%", none, 0⟩ right
  | "==", [left, right] => .binary left .equal ⟨.equalEqual, "==", none, 0⟩ right
  | "!=", [left, right] => .binary left .notEqual ⟨.bangEqual, "!=", none, 0⟩ right
  | "<", [left, right] => .binary left .less ⟨.less, "<", none, 0⟩ right
  | "<=", [left, right] => .binary left .lessEqual ⟨.lessEqual, "<=", none, 0⟩ right
  | ">", [left, right] => .binary left .greater ⟨.greater, ">", none, 0⟩ right
  | ">=", [left, right] => .binary left .greaterEqual ⟨.greaterEqual, ">=", none, 0⟩ right
  | "and", [left, right] => .logical left .and ⟨.and, "and", none, 0⟩ right
  | "or", [left, right] => .logical left .or ⟨.or, "or", none, 0⟩ right
  | "call", callee :: arguments => .call callee ⟨.rightParen, ")", none, 0⟩ arguments
  | ".", [object, .name use] => .get object use.name
  | ".=", [object, .name use, value] => .set object use.name value
  | "super", [.name use] => .super { name := ⟨.super, "super", none, 0⟩ } use.name
  | _, _ => default

mutual

/-- The expression that a form stands for. -/
def Form.read (value : List Char → Float) : Form → Expr
  | .word w => .ofWord value w
  | .form head parts => .ofParts head (readForms value parts)

def readForms (value : List Char → Float) : List Form → List Expr
  | [] => []
  | f :: fs => f.read value :: readForms value fs

end

/-- A node is no string and no function; a number is finite, and its text has its value. -/
def Node.Plain (value : List Char → Float) : Node → Prop
  | .expr (.literal (.text _)) | .expr (.lambda _) => False
  | .expr (.literal (.number x)) =>
      IsFinite x ∧ value (NumberLayout.outline.write x).toList = x
  | _ => True

/-- A node as it is read, made of spelled tokens of the right kinds, that can be read back. -/
structure Node.Legible (value : List Char → Float) (n : Node) : Prop where
  spelled : ∀ t ∈ n.tokens, Spelling t.lexeme.toList t.kind t.literal
  kinded : n.Kinded
  unresolved : ∀ use, n.use? = some use → use.hops = none
  plain : n.Plain value

section
variable {value : List Char → Float} {indent : String} {depth : Nat}

/-- A token of a kind with one spelling. -/
theorem Token.lineless_eq {t : Token} (h : Spelling t.lexeme.toList t.kind t.literal) {kind : TokenKind}
    {s : String} (hkind : t.kind = kind) (hs : kind.text? = some s) :
    t.lexeme = s ∧ t.lineless = ⟨kind, s, none, 0⟩ := by
  obtain ⟨hlexeme, hliteral⟩ := h.text (hkind ▸ hs)
  have hlexeme : t.lexeme = s := String.toList_inj.mp hlexeme
  refine ⟨hlexeme, ?_⟩
  unfold lineless
  rw [hkind, hlexeme, hliteral]

/-- A name. -/
theorem Token.lineless_name {t : Token} (h : Spelling t.lexeme.toList t.kind t.literal)
    (hkind : t.kind = .identifier) :
    t.lineless = ⟨.identifier, String.ofList t.lexeme.toList, none, 0⟩ ∧
      (∀ c ∈ t.lexeme.toList, isNamePart c = true) ∧ Unreserved t.lexeme := by
  rw [hkind] at h
  obtain ⟨c, cs, hw, hc, hcs, hword⟩ := h.identifier
  rw [String.ofList_toList] at hword
  have hliteral : t.literal = none := h.literal_of_identifier
  refine ⟨?_, ?_, hword⟩
  · unfold lineless
    rw [hkind, hliteral, String.ofList_toList]
  · rw [hw]
    exact List.forall_mem_cons.mpr ⟨isNamePart_of_start hc, hcs⟩

theorem ofWord_name {t : Token} (h : Spelling t.lexeme.toList t.kind t.literal)
    (hkind : t.kind = .identifier) :
    Expr.ofWord value t.lexeme.toList = .name { name := t.lineless } := by
  obtain ⟨hlineless, hparts, hword⟩ := Token.lineless_name h hkind
  have hne : ∀ s : String, TokenKind.ofWord s ≠ .identifier → t.lexeme.toList ≠ s.toList := by
    intro s hs he
    rw [String.toList_inj] at he
    exact hs (he ▸ hword)
  unfold Expr.ofWord
  rw [if_neg (hne _ (by decide)), if_neg (hne _ (by decide)), if_neg (hne _ (by decide)),
    if_neg (hne _ (by decide)), if_pos (List.all_eq_true.mpr hparts), hlineless]

theorem ofWord_number {x : Float} (hx : IsFinite x)
    (hvalue : value (NumberLayout.outline.write x).toList = x) :
    Expr.ofWord value (NumberLayout.outline.write x).toList = .literal (.number x) := by
  obtain ⟨-, c, hc, hpart⟩ := write_finite hx
  have hne : ∀ s : String, s.toList.all isNamePart = true →
      (NumberLayout.outline.write x).toList ≠ s.toList := by
    intro s hs he
    have hno := List.all_eq_true.mp hs c (he ▸ hc)
    rw [hpart] at hno
    cases hno
  have hall : ¬(NumberLayout.outline.write x).toList.all isNamePart = true := by
    intro hall
    have hno := List.all_eq_true.mp hall c hc
    rw [hpart] at hno
    cases hno
  unfold Expr.ofWord
  rw [if_neg (hne _ (by decide)), if_neg (hne _ (by decide)), if_neg (hne _ (by decide)),
    if_neg (hne _ (by decide)), if_neg hall, hvalue]

theorem unmarked_of_any {cs : List Char} (h : cs.any isMark = false) :
    ∀ c ∈ cs, isMark c = false :=
  fun c hc => Bool.eq_false_of_not_eq_true (List.any_eq_false.mp h c hc)

/-- The head of a form without marks, and what the form stands for. -/
def Assembles (head : List Char) (parts : List Expr) (e : Expr) : Prop :=
  head.any isMark = false ∧ Expr.ofParts head parts = e

theorem assembles_unary {op : UnaryOp} {t : Token}
    (h : Spelling t.lexeme.toList t.kind t.literal) (hkind : t.kind = op.sign) (operand : Expr) :
    Assembles t.lexeme.toList [operand] (.unary op t.lineless operand) := by
  cases op with
  | not =>
      obtain ⟨hlexeme, hlineless⟩ := Token.lineless_eq h hkind rfl
      rw [hlexeme, hlineless]
      exact ⟨by decide, rfl⟩
  | negate =>
      obtain ⟨hlexeme, hlineless⟩ := Token.lineless_eq h hkind rfl
      rw [hlexeme, hlineless]
      exact ⟨by decide, rfl⟩

theorem assembles_binary {op : BinaryOp} {t : Token}
    (h : Spelling t.lexeme.toList t.kind t.literal) (hkind : t.kind = op.sign) (left right : Expr) :
    Assembles t.lexeme.toList [left, right] (.binary left op t.lineless right) := by
  cases op
  all_goals
    obtain ⟨hlexeme, hlineless⟩ := Token.lineless_eq h hkind rfl
    rw [hlexeme, hlineless]
    exact ⟨by decide, rfl⟩

theorem assembles_logical {op : LogicalOp} {t : Token}
    (h : Spelling t.lexeme.toList t.kind t.literal) (hkind : t.kind = op.sign) (left right : Expr) :
    Assembles t.lexeme.toList [left, right] (.logical left op t.lineless right) := by
  cases op
  all_goals
    obtain ⟨hlexeme, hlineless⟩ := Token.lineless_eq h hkind rfl
    rw [hlexeme, hlineless]
    exact ⟨by decide, rfl⟩

theorem proper_name {t : Token} (h : Spelling t.lexeme.toList t.kind t.literal)
    (hkind : t.kind = .identifier) : (Form.word t.lexeme.toList).Proper := by
  obtain ⟨-, hparts, -⟩ := Token.lineless_name h hkind
  rw [Form.Proper]
  intro c hc
  by_contra hmark
  rw [Bool.not_eq_false] at hmark
  unfold isMark at hmark
  simp only [Bool.or_eq_true, beq_iff_eq] at hmark
  rcases hmark with (rfl | rfl) | rfl <;> exact absurd (hparts _ hc) (by decide)

/-- A form is proper and stands for an expression. -/
def Reads (value : List Char → Float) (f : Form) (e : Expr) : Prop := f.Proper ∧ f.read value = e

theorem Reads.all {fs : List Form} {es : List Expr} (h : List.Forall₂ (Reads value) fs es) :
    Form.ProperAll fs ∧ readForms value fs = es := by
  induction h with
  | nil => exact ⟨trivial, rfl⟩
  | cons hread _ ih =>
      rw [Form.ProperAll, readForms, hread.2, ih.2]
      exact ⟨⟨hread.1, ih.1⟩, rfl⟩

theorem Reads.form {head : List Char} {fs : List Form} {es : List Expr} {e : Expr}
    (hfs : List.Forall₂ (Reads value) fs es) (h : Assembles head es e) :
    Reads value (.form head fs) e := by
  obtain ⟨hproper, hparts⟩ := Reads.all hfs
  refine ⟨?_, ?_⟩
  · rw [Form.Proper]
    exact ⟨unmarked_of_any h.1, hproper⟩
  · rw [Form.read, hparts]
    exact h.2

/-- A word without marks stands for itself. -/
theorem Reads.word {w : List Char} (hw : w.any isMark = false) :
    Reads value (.word w) (.ofWord value w) := by
  refine ⟨?_, ?_⟩
  · rw [Form.Proper]
    exact unmarked_of_any hw
  · rw [Form.read]

theorem Reads.name {t : Token} (h : Spelling t.lexeme.toList t.kind t.literal)
    (hkind : t.kind = .identifier) :
    Reads value (.word t.lexeme.toList) (.name { name := t.lineless }) := by
  refine ⟨proper_name h hkind, ?_⟩
  rw [Form.read, ofWord_name h hkind]

variable (indent depth) in
mutual

/-- A legible expression is read back from its form. -/
theorem Expr.reads (e : Expr) (h : (Node.expr e).Every (Node.Legible value)) :
    Reads value (e.form indent depth) e.lineless := by
  cases e with
  | literal v =>
      rw [Expr.form, Expr.lineless]
      cases v with
      | nil => exact .word (by decide)
      | bool b => cases b <;> exact .word (by decide)
      | text s => exact h.here.plain.elim
      | number x =>
          obtain ⟨hfinite, hvalue⟩ := h.here.plain
          refine ⟨?_, ?_⟩
          · rw [Form.Proper]
            exact (write_finite hfinite).1
          · rw [Form.read]
            exact ofWord_number hfinite hvalue
  | grouping inner =>
      rw [Expr.form, Expr.lineless]
      exact .form (.cons (Expr.reads inner (h.part List.mem_cons_self)) .nil)
        ⟨by decide, rfl⟩
  | name use =>
      rw [Expr.form, Expr.lineless, NameUse.lineless_eq (h.here.unresolved use rfl)]
      exact .name (h.here.spelled _ List.mem_cons_self) h.here.kinded
  | assign use v =>
      rw [Expr.form, Expr.lineless, NameUse.lineless_eq (h.here.unresolved use rfl)]
      have hname : Reads value (.word use.name.lexeme.toList) (.name { name := use.name.lineless }) :=
        .name (h.here.spelled _ List.mem_cons_self) h.here.kinded
      have hequals : Reads value (.word "=".toList) (.ofWord value "=".toList) := .word (by decide)
      have hvalue := Expr.reads v (h.part List.mem_cons_self)
      exact .form (.cons hname (.cons hequals (.cons hvalue .nil))) ⟨by decide, rfl⟩
  | unary op token operand =>
      rw [Expr.form, Expr.lineless]
      exact .form (.cons (Expr.reads operand (h.part List.mem_cons_self)) .nil)
        (assembles_unary (h.here.spelled _ List.mem_cons_self) h.here.kinded _)
  | binary left op token right =>
      rw [Expr.form, Expr.lineless]
      have hleft := Expr.reads left (h.part List.mem_cons_self)
      have hright := Expr.reads right (h.part (List.mem_cons_of_mem _ List.mem_cons_self))
      exact .form (.cons hleft (.cons hright .nil))
        (assembles_binary (h.here.spelled _ List.mem_cons_self) h.here.kinded _ _)
  | logical left op token right =>
      rw [Expr.form, Expr.lineless]
      have hleft := Expr.reads left (h.part List.mem_cons_self)
      have hright := Expr.reads right (h.part (List.mem_cons_of_mem _ List.mem_cons_self))
      exact .form (.cons hleft (.cons hright .nil))
        (assembles_logical (h.here.spelled _ List.mem_cons_self) h.here.kinded _ _)
  | call callee paren arguments =>
      have hparen : paren.lineless = ⟨.rightParen, ")", none, 0⟩ :=
        (Token.lineless_eq (h.here.spelled _ List.mem_cons_self) h.here.kinded rfl).2
      rw [Expr.form, Expr.lineless, hparen]
      have hcallee := Expr.reads callee (h.part List.mem_cons_self)
      have harguments := formExprs_reads arguments fun e he =>
        h.part (List.mem_cons_of_mem _ (List.mem_map_of_mem he))
      exact .form (.cons hcallee harguments) ⟨by decide, rfl⟩
  | get object name =>
      rw [Expr.form, Expr.lineless]
      have hobject := Expr.reads object (h.part List.mem_cons_self)
      have hname : Reads value (.word name.lexeme.toList) (.name { name := name.lineless }) :=
        .name (h.here.spelled _ List.mem_cons_self) h.here.kinded
      exact .form (.cons hobject (.cons hname .nil)) ⟨by decide, rfl⟩
  | set object name v =>
      rw [Expr.form, Expr.lineless]
      have hobject := Expr.reads object (h.part List.mem_cons_self)
      have hname : Reads value (.word name.lexeme.toList) (.name { name := name.lineless }) :=
        .name (h.here.spelled _ List.mem_cons_self) h.here.kinded
      have hvalue := Expr.reads v (h.part (List.mem_cons_of_mem _ List.mem_cons_self))
      exact .form (.cons hobject (.cons hname (.cons hvalue .nil))) ⟨by decide, rfl⟩
  | this use =>
      have hthis : use.name.lineless = ⟨.this, "this", none, 0⟩ :=
        (Token.lineless_eq (h.here.spelled _ List.mem_cons_self) h.here.kinded rfl).2
      rw [Expr.form, Expr.lineless, NameUse.lineless_eq (h.here.unresolved use rfl), hthis]
      exact .word (by decide)
  | super use method =>
      have hsuper : use.name.lineless = ⟨.super, "super", none, 0⟩ :=
        (Token.lineless_eq (h.here.spelled _ List.mem_cons_self) h.here.kinded.1 rfl).2
      rw [Expr.form, Expr.lineless, NameUse.lineless_eq (h.here.unresolved use rfl), hsuper]
      have hmethod : Reads value (.word method.lexeme.toList) (.name { name := method.lineless }) :=
        .name (h.here.spelled _ (List.mem_cons_of_mem _ List.mem_cons_self)) h.here.kinded.2
      exact .form (.cons hmethod .nil) ⟨by decide, rfl⟩
  | lambda f => exact h.here.plain.elim

theorem formExprs_reads (es : List Expr) (h : ∀ e ∈ es, (Node.expr e).Every (Node.Legible value)) :
    List.Forall₂ (Reads value) (formExprs indent depth es) (linelessExprs es) := by
  cases es with
  | nil => exact .nil
  | cons e es =>
      rw [formExprs, linelessExprs]
      exact .cons (Expr.reads e (h e List.mem_cons_self))
        (formExprs_reads es fun e he => h e (List.mem_cons_of_mem _ he))

end

end

/-! ### Outlines of what was read -/

namespace Expr

/-- The numbers in an expression. -/
def numbers (e : Expr) : Set Float := {x | (Node.expr e).Encloses (.expr (.literal (.number x)))}

/-- An expression holds no string, no function, and no number but finite ones. -/
structure Simple (e : Expr) : Prop where
  noText : ∀ s, ¬(Node.expr e).Encloses (.expr (.literal (.text s)))
  noFunction : ∀ f, ¬(Node.expr e).Encloses (.expr (.lambda f))
  finite : ∀ x ∈ e.numbers, IsFinite x

/-- A text is read without errors, and an expression stands somewhere in its statements. -/
def ReadIn (e : Expr) (t : UnitText) : Prop :=
  t.parsed.reports = [] ∧ ∃ st ∈ t.parsed.statements, (Node.stmt st).Encloses (.expr e)

variable {e e' : Expr} {t t' : UnitText} {value : List Char → Float}

theorem Simple.legible (h : e.Simple) (ht : e.ReadIn t)
    (hvalue : ∀ x ∈ e.numbers, value (NumberLayout.outline.write x).toList = x) :
    (Node.expr e).Every (Node.Legible value) := by
  obtain ⟨hreports, st, hst, frames, hwithin⟩ := ht
  intro q hq
  obtain ⟨outer, hq'⟩ := hq.anywhere frames
  obtain ⟨hwritten, hshaped⟩ := (UnitText.parsed_allRead hreports st hst).within (hwithin.trans hq')
  constructor
  case spelled =>
    intro t ht
    obtain ⟨position, hat⟩ := mem_scan_iff.mp (hwritten.mem t ht)
    exact hat.spelling
  case kinded => exact hwritten.kinded
  case unresolved => exact fun _ => hshaped.hops
  case plain =>
    obtain ⟨inside, n⟩ := q
    unfold Node.Plain
    dsimp only
    split
    · next s => exact h.noText s ⟨inside, hq⟩
    · next f => exact h.noFunction f ⟨inside, hq⟩
    · next x => exact ⟨h.finite x ⟨inside, hq⟩, hvalue x ⟨inside, hq⟩⟩
    · trivial

/-- Two expressions that were read, without strings and functions, have different outlines unless they
are the same but for the lines of their tokens. Their numbers are finite, and no two of them have the
same text. -/
theorem lineless_eq_of_outline (ht : e.ReadIn t) (ht' : e'.ReadIn t') (h : e.Simple)
    (h' : e'.Simple) (hnumbers : (e.numbers ∪ e'.numbers).InjOn NumberLayout.outline.write)
    {indent indent' : String} {depth depth' : Nat}
    (houtline : e.outline indent depth = e'.outline indent' depth') : e.lineless = e'.lineless := by
  -- The outlines determine the texts of the numbers only, which are told apart by assumption.
  let write (x : Float) : List Char := (NumberLayout.outline.write x).toList
  let value := Function.invFunOn write (e.numbers ∪ e'.numbers)
  have hwrite : (e.numbers ∪ e'.numbers).InjOn write := fun x hx y hy hxy =>
    hnumbers hx hy (String.toList_inj.mp hxy)
  have hvalue : ∀ x ∈ e.numbers ∪ e'.numbers, value (write x) = x := hwrite.leftInvOn_invFunOn
  obtain ⟨hproper, hread⟩ := e.reads indent depth (h.legible ht fun x hx => hvalue x (.inl hx))
  obtain ⟨hproper', hread'⟩ :=
    e'.reads indent' depth' (h'.legible ht' fun x hx => hvalue x (.inr hx))
  have htexts : (e.form indent depth).text = (e'.form indent' depth').text := by
    rw [← toList_outline, ← toList_outline, houtline]
  calc e.lineless
      = (e.form indent depth).read value := hread.symm
    _ = (e'.form indent' depth').read value :=
        congrArg (Form.read value) (Form.eq_of_text_eq hproper hproper' htexts)
    _ = e'.lineless := hread'

/-- The difference of a name and a negated name, where statements are no more than that. -/
def difference? : List Stmt → Option Expr
  | [.expression (.binary (.name use) op t (.unary op' t' (.name use')))] =>
      some (.binary (.name use) op t (.unary op' t' (.name use')))
  | _ => none

theorem eq_of_difference? {ss : List Stmt} (h : difference? ss = some e) :
    ss = [.expression e] ∧ ∃ use op t op' t' use',
      e = .binary (.name use) op t (.unary op' t' (.name use')) := by
  unfold difference? at h
  split at h
  · cases h
    exact ⟨rfl, _, _, _, _, _, _, rfl⟩
  · cases h

/-- A node that is neither a literal nor a function. -/
def IsNested (n : Node) : Prop := (∀ l, n ≠ .expr (.literal l)) ∧ ∀ f, n ≠ .expr (.lambda f)

theorem difference_nested {use use' : NameUse} {op : BinaryOp} {op' : UnaryOp} {t t' : Token} :
    (Node.expr (.binary (.name use) op t (.unary op' t' (.name use')))).Every IsNested := by
  have hname : ∀ use, (Node.expr (.name use)).Every IsNested := fun use =>
    .intro ⟨nofun, nofun⟩ (List.forall_mem_nil _)
  refine .intro ⟨nofun, nofun⟩ (List.forall_mem_cons.mpr ⟨hname use, List.forall_mem_singleton.mpr ?_⟩)
  exact .intro ⟨nofun, nofun⟩ (List.forall_mem_singleton.mpr (hname use'))

theorem simple_of_nested (h : (Node.expr e).Every IsNested) : e.Simple ∧ e.numbers = ∅ := by
  have hnone : e.numbers = ∅ := by
    refine Set.eq_empty_of_forall_notMem fun x hx => ?_
    obtain ⟨frames, hwithin⟩ := hx
    exact (h.within hwithin).1 _ rfl
  refine ⟨⟨?_, ?_, ?_⟩, hnone⟩
  · rintro s ⟨frames, hwithin⟩
    exact (h.within hwithin).1 _ rfl
  · rintro f ⟨frames, hwithin⟩
    exact (h.within hwithin).2 _ rfl
  · intro x hx
    rw [hnone] at hx
    exact hx.elim

/-- One minus between two operands and one in front of an operand, on one line and on two. -/
theorem lineless_eq_of_outline_difference :
    let t : UnitText := { levels := 100, file := "<lox>", source := "a - -b;" }
    let t' : UnitText := { levels := 100, file := "<lox>", source := "a -\n -b;" }
    ∃ e e' : Expr, (e.ReadIn t ∧ e'.ReadIn t') ∧ (e.Simple ∧ e'.Simple) ∧
      (e.numbers ∪ e'.numbers).InjOn NumberLayout.outline.write ∧
      e.outline "" 0 = e'.outline "" 0 ∧ e.lineless = e'.lineless := by
  intro t t'
  have hreads : ∀ u : UnitText, u.parsed.reports = [] →
      (difference? u.parsed.statements).map (Expr.outline "" 0) = some "(- a (- b))" →
      ∃ e : Expr, e.ReadIn u ∧ (e.Simple ∧ e.numbers = ∅) ∧ e.outline "" 0 = "(- a (- b))" := by
    intro u hreports houtline
    obtain ⟨e, he, houtline⟩ := Option.map_eq_some_iff.mp houtline
    obtain ⟨hstatements, use, op, t, op', t', use', rfl⟩ := eq_of_difference? he
    refine ⟨_, ⟨hreports, _, hstatements ▸ List.mem_singleton_self _, [], ?_⟩,
      simple_of_nested difference_nested, houtline⟩
    exact .single (.part List.mem_cons_self)
  obtain ⟨e, hread, ⟨hsimple, hnone⟩, houtline⟩ := hreads t (by decide +kernel) (by decide +kernel)
  obtain ⟨e', hread', ⟨hsimple', hnone'⟩, houtline'⟩ :=
    hreads t' (by decide +kernel) (by decide +kernel)
  have hnumbers : (e.numbers ∪ e'.numbers).InjOn NumberLayout.outline.write := by
    rw [hnone, hnone', Set.union_empty]
    exact Set.injOn_empty _
  have hsame : e.outline "" 0 = e'.outline "" 0 := houtline.trans houtline'.symm
  exact ⟨e, e', ⟨hread, hread'⟩, ⟨hsimple, hsimple'⟩, hnumbers, hsame,
    lineless_eq_of_outline hread hread' hsimple hsimple' hnumbers hsame⟩

end Expr
end Treewalk
