import Treewalk.Proofs.Grammar.Derivation
import Treewalk.Proofs.Scopes.Position

/-!
# Nodes of trees that were read

Which tokens a node keeps, and of which kinds the grammar lets them be; and what the grammar says of
the shape of a node: no branch or loop body declares anything, a function statement has a name, and
no use is resolved. All nodes of a tree that was read are so, and their tokens, with the values of
literals, are among those the tree was read from.
-/
namespace Treewalk

/-- What stands directly inside a node, whatever names it sees. -/
def Node.inside : Node → List Node
  | .expr e => e.parts
  | .stmt (.var _ _ initial) => initial.toList.map .expr
  | .stmt (.block body) => body.map .stmt
  | .stmt (.function f) => [.function f]
  | .stmt (.class _ superclass methods) =>
      (superclass.toList.map fun use => .expr (.name use)) ++ methods.map .function
  | .stmt s => s.parts
  | .function f => f.body.map .stmt

theorem Inner.mem_inside {p q : Position} (h : Inner p q) : q.node ∈ p.node.inside := by
  cases h with
  | @part frames n m hm =>
      cases n with
      | expr e => exact hm
      | function f => cases hm
      | stmt s =>
          cases s with
          | «class» name superclass methods =>
              cases superclass with
              | none => cases hm
              | some use => exact List.mem_append_left _ hm
          | var | block | function => cases hm
          | _ => exact hm
  | initial => exact List.mem_cons_self
  | block => exact List.mem_map_of_mem (by simp)
  | declared => exact List.mem_cons_self
  | body hbody => exact List.mem_map_of_mem (by rw [hbody]; simp)
  | method hf => exact List.mem_map_of_mem hf
  | inherited hf => exact List.mem_cons_of_mem _ (List.mem_map_of_mem hf)

/-- A property holds of a node and of all inside it. -/
def Node.Every (P : Node → Prop) (n : Node) : Prop := Everywhere (fun q => P q.node) ⟨[], n⟩

namespace Node.Every
variable {P : Node → Prop} {n : Node}

theorem intro (h : P n) (hi : ∀ m ∈ n.inside, m.Every P) : n.Every P :=
  Everywhere.intro h fun q hq => (hi q.node hq.mem_inside).anywhere q.frames

theorem here (h : n.Every P) : P n := Everywhere.here h

theorem part {m : Node} (h : n.Every P) (hm : m ∈ n.parts) : m.Every P := Everywhere.inner h (.part hm)

theorem within (h : n.Every P) {frames : List Frame} {q : Position} (hq : Within ⟨frames, n⟩ q) :
    P q.node := h.anywhere frames q hq

theorem inward (h : n.Every P) {frames : List Frame} {q : Position} (hq : Within ⟨frames, n⟩ q) :
    q.node.Every P := (Everywhere.within (h.anywhere frames) hq).anywhere []

end Node.Every

/-- The other node is the node or stands somewhere inside it. -/
def Node.Encloses (n m : Node) : Prop := ∃ frames, Within ⟨[], n⟩ ⟨frames, m⟩

namespace Node.Encloses
variable {n m k : Node}

theorem refl (n : Node) : n.Encloses n := ⟨[], .refl⟩

theorem trans (h : n.Encloses m) (h' : m.Encloses k) : n.Encloses k := by
  obtain ⟨frames, hm⟩ := h
  obtain ⟨_, hk⟩ := h'
  obtain ⟨frames', hk⟩ := hk.anywhere frames
  exact ⟨frames', Relation.ReflTransGen.trans hm hk⟩

theorem inner (h : n.Encloses m) (hk : ∀ frames, ∃ frames', Inner ⟨frames, m⟩ ⟨frames', k⟩) :
    n.Encloses k := by
  obtain ⟨frames, hm⟩ := h
  obtain ⟨frames', hk⟩ := hk frames
  exact ⟨frames', hm.tail hk⟩

end Node.Encloses

/-- The sign of an operator on one operand. -/
def UnaryOp.sign : UnaryOp → TokenKind
  | .not => .bang
  | .negate => .minus

/-- The sign of an operator on two operands. -/
def BinaryOp.sign : BinaryOp → TokenKind
  | .add => .plus
  | .subtract => .minus
  | .multiply => .star
  | .divide => .slash
  | .remainder => .percent
  | .equal => .equalEqual
  | .notEqual => .bangEqual
  | .less => .less
  | .lessEqual => .lessEqual
  | .greater => .greater
  | .greaterEqual => .greaterEqual

/-- The word of an operator that may skip its right operand. -/
def LogicalOp.sign : LogicalOp → TokenKind
  | .and => .and
  | .or => .or

namespace Node

/-- The tokens that a node itself keeps. -/
def tokens : Node → List Token
  | .expr (.name use) | .expr (.assign use _) | .expr (.this use) => [use.name]
  | .expr (.unary _ token _) | .expr (.binary _ _ token _) | .expr (.logical _ _ token _)
  | .expr (.call _ token _) => [token]
  | .expr (.get _ name) | .expr (.set _ name _) => [name]
  | .expr (.super use method) => [use.name, method]
  | .stmt (.var _ name _) => [name]
  | .stmt (.break keyword) | .stmt (.continue keyword) | .stmt (.return keyword _) => [keyword]
  | .stmt (.class name superclass _) => name :: superclass.toList.map NameUse.name
  | .stmt (.importModule keyword name as) => keyword :: name :: as.toList
  | .function f => f.name.toList ++ f.parameters
  | _ => []

/-- The tokens of a node are of the kinds that the grammar asks for. -/
def Kinded : Node → Prop
  | .expr (.name use) | .expr (.assign use _) => use.name.kind = .identifier
  | .expr (.this use) => use.name.kind = .this
  | .expr (.unary op token _) => token.kind = op.sign
  | .expr (.binary _ op token _) => token.kind = op.sign
  | .expr (.logical _ op token _) => token.kind = op.sign
  | .expr (.call _ paren _) => paren.kind = .rightParen
  | .expr (.get _ name) | .expr (.set _ name _) | .stmt (.var _ name _) => name.kind = .identifier
  | .expr (.super use method) => use.name.kind = .super ∧ method.kind = .identifier
  | .stmt (.break keyword) => keyword.kind = .break
  | .stmt (.continue keyword) => keyword.kind = .continue
  | .stmt (.return keyword _) => keyword.kind = .return
  | .stmt (.class name superclass _) =>
      name.kind = .identifier ∧ ∀ use ∈ superclass, use.name.kind = .identifier
  | .stmt (.importModule keyword name as) =>
      keyword.kind = .import ∧ (name.kind = .identifier ∨ name.kind = .string) ∧
        ∀ t ∈ as, t.kind = .identifier
  | .function f => ∀ t ∈ f.name.toList ++ f.parameters, t.kind = .identifier
  | _ => True

/-- The value of a literal is that of a keyword or of one of the given tokens. -/
def Valued (ts : List Token) : Node → Prop
  | .expr (.literal (.number x)) => ∃ t ∈ ts,
      (t.kind = .number ∨ t.kind = .string) ∧ t.literal = some (.number x)
  | .expr (.literal (.text x)) => ∃ t ∈ ts,
      (t.kind = .number ∨ t.kind = .string) ∧ t.literal = some (.text x)
  | _ => True

/-- A node is written with the given tokens. -/
structure WrittenIn (ts : List Token) (n : Node) : Prop where
  mem : ∀ t ∈ n.tokens, t ∈ ts
  kinded : n.Kinded
  valued : n.Valued ts

variable {ts : List Token}

theorem WrittenIn.single {n : Node} {t : Token} (htokens : n.tokens = [t]) (ht : t ∈ ts)
    (hk : n.Kinded) (hv : n.Valued ts) : n.WrittenIn ts where
  mem := by
    rw [htokens]
    exact List.forall_mem_singleton.mpr ht
  kinded := hk
  valued := hv

theorem WrittenIn.plain {n : Node} (htokens : n.tokens = []) (hk : n.Kinded) (hv : n.Valued ts) :
    n.WrittenIn ts where
  mem := by
    rw [htokens]
    exact List.forall_mem_nil _
  kinded := hk
  valued := hv

end Node

/-- The use of a name that a node is. -/
def Node.use? : Node → Option NameUse
  | .expr (.name use) | .expr (.assign use _) | .expr (.this use) | .expr (.super use _) => some use
  | _ => none

namespace Node

/-- A node is shaped as the grammar says. -/
def Shaped : Node → Prop
  | .stmt (.if _ s s') => s.declares = [] ∧ ∀ t ∈ s', t.declares = []
  | .stmt (.while _ s _) => s.declares = []
  | .stmt (.function f) => f.name.isSome = true
  | .expr (.name use) | .expr (.assign use _) | .expr (.this use) | .expr (.super use _) =>
      use.hops = none
  | _ => True

/-- A node as it is read from the given tokens. -/
structure ReadFrom (ts : List Token) (n : Node) : Prop where
  written : n.WrittenIn ts
  shaped : n.Shaped

/-- All inside a node is read from the given tokens. -/
abbrev AllRead (ts : List Token) (n : Node) : Prop := n.Every (ReadFrom ts)

namespace AllRead
variable {ts : List Token} {n m k : Node}

/-- A node that keeps no token. -/
theorem plain (htokens : n.tokens = []) (hk : n.Kinded) (hv : n.Valued ts) (hs : n.Shaped)
    (hi : ∀ m ∈ n.inside, m.AllRead ts) : n.AllRead ts := .intro ⟨.plain htokens hk hv, hs⟩ hi

/-- A node that keeps one token. -/
theorem single {t : Token} (htokens : n.tokens = [t]) (ht : t ∈ ts) (hk : n.Kinded)
    (hv : n.Valued ts) (hs : n.Shaped) (hi : ∀ m ∈ n.inside, m.AllRead ts) : n.AllRead ts :=
  .intro ⟨.single htokens ht hk hv, hs⟩ hi

theorem one (h : n.AllRead ts) : ∀ m ∈ [n], m.AllRead ts := List.forall_mem_singleton.mpr h

theorem two (h : n.AllRead ts) (h' : m.AllRead ts) : ∀ x ∈ [n, m], x.AllRead ts :=
  List.forall_mem_cons.mpr ⟨h, h'.one⟩

theorem three (h : n.AllRead ts) (h' : m.AllRead ts) (h'' : k.AllRead ts) :
    ∀ x ∈ [n, m, k], x.AllRead ts :=
  List.forall_mem_cons.mpr ⟨h, h'.two h''⟩

/-- Parts of one sort. -/
theorem ofMap {α : Type} {f : α → Node} {as : List α} (h : ∀ a ∈ as, (f a).AllRead ts) :
    ∀ m ∈ as.map f, m.AllRead ts := List.forall_mem_map.mpr h

theorem ofOption {α : Type} {f : α → Node} {o : Option α} (h : ∀ a ∈ o, (f a).AllRead ts) :
    ∀ m ∈ o.toList.map f, m.AllRead ts := ofMap fun a ha => h a (Option.mem_toList.mp ha)

/-- The loop that a `for` statement stands for. -/
theorem loop {c a : Option Expr} {s : Stmt} (hc : ∀ e ∈ c, (Node.expr e).AllRead ts)
    (ha : ∀ e ∈ a, (Node.expr e).AllRead ts) (hs : (Node.stmt s).AllRead ts) (hd : s.declares = []) :
    (Node.stmt (.while (c.getD (.literal (.bool true))) s a)).AllRead ts := by
  have hcondition : (Node.expr (c.getD (.literal (.bool true)))).AllRead ts := by
    cases c with
    | none => exact .plain rfl trivial trivial trivial (List.forall_mem_nil _)
    | some e => exact hc e rfl
  refine .plain rfl trivial trivial hd (List.forall_mem_cons.mpr ⟨hcondition, ?_⟩)
  exact List.forall_mem_cons.mpr ⟨hs, .ofOption ha⟩

end AllRead
end Node

/-- The trees of a phrase are read from the given tokens. -/
def Phrase.AllRead (ts : List Token) : Phrase → Prop
  | .expression _ e => (Node.expr e).AllRead ts
  | .optional o => ∀ e ∈ o, (Node.expr e).AllRead ts
  | .arguments es => ∀ e ∈ es, (Node.expr e).AllRead ts
  | .function f =>
      (∀ t ∈ f.name, t ∈ ts ∧ t.kind = .identifier) → (Node.function f).AllRead ts
  | .methods fs => ∀ f ∈ fs, (Node.function f).AllRead ts
  | .variable s | .declaration s => (Node.stmt s).AllRead ts
  | .initial o => ∀ s ∈ o, (Node.stmt s).AllRead ts
  | .statement _ s => (Node.stmt s).AllRead ts ∧ s.declares = []
  | .declarations ss => ∀ s ∈ ss, (Node.stmt s).AllRead ts

section
variable {us : List Token}

theorem Atom.allRead {t : Token} {e : Expr} (h : Atom t e) (ht : t ∈ us) : (Node.expr e).AllRead us := by
  have hliteral : t.kind = .number ∨ t.kind = .string →
      (Node.expr (.literal (t.literal.getD .nil))).AllRead us := by
    intro hk
    refine .plain rfl trivial ?_ trivial (List.forall_mem_nil _)
    cases hvalue : t.literal with
    | none => trivial
    | some value =>
        cases value with
        | nil | bool => trivial
        | number x => exact ⟨t, ht, hk, hvalue⟩
        | text x => exact ⟨t, ht, hk, hvalue⟩
  cases h with
  | false | true | nil => exact .plain rfl trivial trivial trivial (List.forall_mem_nil _)
  | number hk => exact hliteral (.inl hk)
  | string hk => exact hliteral (.inr hk)
  | name hk => exact .single rfl ht hk trivial rfl (List.forall_mem_nil _)
  | this hk => exact .single rfl ht hk trivial rfl (List.forall_mem_nil _)

theorem Names.of_mem {ts names : List Token} (h : Names ts names) :
    ∀ t ∈ names, t ∈ ts ∧ t.kind = .identifier := by
  induction h with
  | one hk => exact List.forall_mem_singleton.mpr ⟨List.mem_cons_self, hk⟩
  | more hk _ _ ih =>
      refine List.forall_mem_cons.mpr ⟨⟨List.mem_cons_self, hk⟩, fun t ht => ?_⟩
      obtain ⟨hmem, hkind⟩ := ih t ht
      exact ⟨List.mem_cons_of_mem _ (List.mem_cons_of_mem _ hmem), hkind⟩

theorem Parameters.of_mem {ts names : List Token} (h : Parameters ts names) :
    ∀ t ∈ names, t ∈ ts ∧ t.kind = .identifier := by
  cases h with
  | none => exact List.forall_mem_nil _
  | some hnames _ => exact hnames.of_mem

/-- The statement of a class whose name, superclass clause and methods are read. -/
theorem Heritage.allRead {name : Token} {hs : List Token} {parent : Option NameUse}
    {fs : List FunctionDecl} (h : Heritage hs parent) (hname : name ∈ us)
    (hk : name.kind = .identifier) (hhs : ∀ t ∈ hs, t ∈ us)
    (hfs : ∀ f ∈ fs, (Node.function f).AllRead us) :
    (Node.stmt (.class name parent fs)).AllRead us := by
  cases h with
  | none =>
      exact .single rfl hname ⟨hk, fun _ hu => nomatch hu⟩ trivial trivial (Node.AllRead.ofMap hfs)
  | @some _ name' _ hk' =>
      have hparent : name' ∈ us := hhs _ (by simp)
      have huse : (Node.expr (.name { name := name' })).AllRead us :=
        .single rfl hparent hk' trivial rfl (List.forall_mem_nil _)
      refine .intro ⟨⟨?_, ⟨hk, ?_⟩, trivial⟩, trivial⟩
        (List.forall_mem_cons.mpr ⟨huse, Node.AllRead.ofMap hfs⟩)
      · exact List.forall_mem_cons.mpr ⟨hname, List.forall_mem_singleton.mpr hparent⟩
      · intro use hu
        cases hu
        exact hk'

/-- The statement of an import whose name and alias are read. -/
theorem Alias.allRead {keyword name : Token} {ts : List Token} {as : Option Token} (h : Alias ts as)
    (hkeyword : keyword ∈ us) (hk : keyword.kind = .import) (hname : name ∈ us)
    (hk' : name.kind = .identifier ∨ name.kind = .string) (hts : ∀ t ∈ ts, t ∈ us) :
    (Node.stmt (.importModule keyword name as)).AllRead us := by
  have has : ∀ t ∈ as, t ∈ us ∧ t.kind = .identifier := by
    cases h with
    | none => exact fun _ ht => nomatch ht
    | some _ hk =>
        intro t ht
        cases ht
        exact ⟨hts _ (by simp), hk⟩
  refine .intro ⟨⟨?_, ⟨hk, hk', fun t ht => (has t ht).2⟩, trivial⟩, trivial⟩ (List.forall_mem_nil _)
  refine List.forall_mem_cons.mpr ⟨hkeyword, List.forall_mem_cons.mpr ⟨hname, fun t ht => ?_⟩⟩
  exact (has t (Option.mem_toList.mp ht)).1

/-- A tree that is read is shaped as the grammar says, and written with the tokens it is read
from. -/
theorem Derives.allRead {phrase : Phrase} {ts : List Token} (h : Derives phrase ts)
    (hts : ∀ t ∈ ts, t ∈ us) : phrase.AllRead us := by
  induction h with
  | tighter _ _ ih => exact ih hts
  | assign hk _ _ ih =>
      have hvalue := ih fun t h => hts t (by simp [h])
      exact .single rfl (hts _ (by simp)) hk trivial rfl (.one hvalue)
  | set _ _ hk _ _ ih ih' =>
      have hobject := ih fun t h => hts t (by simp [h])
      have hvalue := ih' fun t h => hts t (by simp [h])
      exact .single rfl (hts _ (by simp)) hk trivial trivial (.two hobject hvalue)
  | operation hi _ _ _ ih ih' =>
      have hl := ih fun t h => hts t (by simp [h])
      have hr := ih' fun t h => hts t (by simp [h])
      cases hi with
      | _ hk => exact .single rfl (hts _ (by simp)) hk trivial trivial (.two hl hr)
  | not hk _ ih | negate hk _ ih =>
      have hoperand := ih fun t h => hts t (by simp [h])
      exact .single rfl (hts _ (by simp)) hk trivial trivial (.one hoperand)
  | call _ _ hk ih | get _ _ hk ih =>
      have hcallee := ih fun t h => hts t (by simp [h])
      exact .single rfl (hts _ (by simp)) hk trivial trivial (.one hcallee)
  | callWith _ _ _ _ hk ih ih' =>
      have hcallee := ih fun t h => hts t (by simp [h])
      have harguments := ih' fun t h => hts t (by simp [h])
      exact .single rfl (hts _ (by simp)) hk trivial trivial
        (List.forall_mem_cons.mpr ⟨hcallee, .ofMap harguments⟩)
  | atom ha => exact ha.allRead (hts _ (by simp))
  | super hk _ hk' =>
      refine .intro ⟨⟨?_, ⟨hk, hk'⟩, trivial⟩, rfl⟩ (List.forall_mem_nil _)
      exact List.forall_mem_cons.mpr
        ⟨hts _ (by simp), List.forall_mem_singleton.mpr (hts _ (by simp))⟩
  | lambda _ _ ih =>
      have hfunction := ih (fun t h => hts t (by simp [h])) fun _ ht => nomatch ht
      exact .plain rfl trivial trivial trivial (.one hfunction)
  | grouping _ _ _ ih =>
      exact .plain rfl trivial trivial trivial (.one (ih fun t h => hts t (by simp [h])))
  | optionalNone => exact fun e he => nomatch he
  | optionalSome _ ih =>
      intro e he
      cases he
      exact ih hts
  | argument _ ih => exact List.forall_mem_singleton.mpr (ih hts)
  | argumentMore _ _ _ ih ih' =>
      exact List.forall_mem_cons.mpr
        ⟨ih fun t h => hts t (by simp [h]), ih' fun t h => hts t (by simp [h])⟩
  | @function _ _ _ _ name params _ body _ _ hps _ _ _ _ ih =>
      -- The name stands in front of the phrase, so that whoever reads it has to vouch for it.
      intro hname
      have htokens : ∀ t ∈ name.toList ++ params, t ∈ us ∧ t.kind = .identifier := by
        intro t ht
        rcases List.mem_append.mp ht with ht | ht
        · exact hname t (Option.mem_toList.mp ht)
        · obtain ⟨hmem, hkind⟩ := hps.of_mem t ht
          exact ⟨hts t (by simp [hmem]), hkind⟩
      exact .intro ⟨⟨fun t ht => (htokens t ht).1, fun t ht => (htokens t ht).2, trivial⟩, trivial⟩
        (Node.AllRead.ofMap (ih fun t h => hts t (by simp [h])))
  | methodsNil => exact List.forall_mem_nil _
  | @methodsCons name _ _ _ _ _ hk _ _ ih ih' =>
      have hname : ∀ t ∈ some name, t ∈ us ∧ t.kind = .identifier := by
        intro t ht
        cases ht
        exact ⟨hts _ (by simp), hk⟩
      exact List.forall_mem_cons.mpr
        ⟨ih (fun t h => hts t (by simp [h])) hname, ih' fun t h => hts t (by simp [h])⟩
  | «variable» _ hk _ =>
      exact .single rfl (hts _ (by simp)) hk trivial trivial (List.forall_mem_nil _)
  | variableWith _ hk _ _ _ ih | constant _ hk _ _ _ ih =>
      have hinitial := ih fun t h => hts t (by simp [h])
      exact .single rfl (hts _ (by simp)) hk trivial trivial (.one hinitial)
  | initialNone _ => exact fun s hs => nomatch hs
  | initialVariable _ ih =>
      intro s hs
      cases hs
      exact ih hts
  | initialExpression _ _ ih =>
      intro s hs
      cases hs
      exact .plain rfl trivial trivial trivial (.one (ih fun t h => hts t (by simp [h])))
  | expressionStatement _ _ ih | print _ _ _ ih =>
      have hvalue := ih fun t h => hts t (by simp [h])
      exact ⟨.plain rfl trivial trivial trivial (.one hvalue), rfl⟩
  | «return» hk _ _ ih =>
      have hvalue := ih fun t h => hts t (by simp [h])
      exact ⟨.single rfl (hts _ (by simp)) hk trivial trivial (.ofOption hvalue), rfl⟩
  | «break» hk _ | «continue» hk _ =>
      exact ⟨.single rfl (hts _ (by simp)) hk trivial trivial (List.forall_mem_nil _), rfl⟩
  | block _ _ _ ih =>
      have hbody := ih fun t h => hts t (by simp [h])
      exact ⟨.plain rfl trivial trivial trivial (.ofMap hbody), rfl⟩
  | «while» _ _ _ _ _ ih ih' =>
      have hcondition := ih fun t h => hts t (by simp [h])
      obtain ⟨hbody, hd⟩ := ih' fun t h => hts t (by simp [h])
      exact ⟨.plain rfl trivial trivial hd (.two hcondition hbody), rfl⟩
  | ifThen _ _ _ _ _ ih ih' =>
      have hcondition := ih fun t h => hts t (by simp [h])
      obtain ⟨hbranch, hd⟩ := ih' fun t h => hts t (by simp [h])
      exact ⟨.plain rfl trivial trivial ⟨hd, fun t h => nomatch h⟩ (.two hcondition hbranch), rfl⟩
  | ifElse _ _ _ _ _ _ _ ih ih' ih'' =>
      have hcondition := ih fun t h => hts t (by simp [h])
      obtain ⟨hbranch, hd⟩ := ih' fun t h => hts t (by simp [h])
      obtain ⟨hother, hd'⟩ := ih'' fun t h => hts t (by simp [h])
      refine ⟨.plain rfl trivial trivial ⟨hd, fun t h => ?_⟩ (.three hcondition hbranch hother), rfl⟩
      cases h
      exact hd'
  | forFrom _ _ _ _ _ _ _ _ _ ihc iha ihs =>
      have hcondition := ihc fun t h => hts t (by simp [h])
      have hadvance := iha fun t h => hts t (by simp [h])
      obtain ⟨hbody, hd⟩ := ihs fun t h => hts t (by simp [h])
      exact ⟨.loop hcondition hadvance hbody hd, rfl⟩
  | forWith _ _ _ _ _ _ _ _ ihi ihc iha ihs =>
      have hinitial := ihi fun t h => hts t (by simp [h])
      have hcondition := ihc fun t h => hts t (by simp [h])
      have hadvance := iha fun t h => hts t (by simp [h])
      obtain ⟨hbody, hd⟩ := ihs fun t h => hts t (by simp [h])
      have hloop := Node.AllRead.loop hcondition hadvance hbody hd
      exact ⟨.plain rfl trivial trivial trivial (.two (hinitial _ rfl) hloop), rfl⟩
  | declarationStatement _ ih => exact (ih hts).1
  | declarationVariable _ ih => exact ih hts
  | @declarationFunction _ name _ _ _ _ hk _ ih =>
      have hname : ∀ t ∈ some name, t ∈ us ∧ t.kind = .identifier := by
        intro t ht
        cases ht
        exact ⟨hts _ (by simp), hk⟩
      have hfunction := ih (fun t h => hts t (by simp [h])) hname
      exact .plain rfl trivial trivial rfl (.one hfunction)
  | declarationClass _ hk hh _ _ _ ih =>
      have hmethods := ih fun t h => hts t (by simp [h])
      exact hh.allRead (hts _ (by simp)) hk (fun t h => hts t (by simp [h])) hmethods
  | declarationImport hk hk' ha _ =>
      exact ha.allRead (hts _ (by simp)) hk (hts _ (by simp)) hk' fun t h => hts t (by simp [h])
  | declarationsNil => exact List.forall_mem_nil _
  | declarationsCons _ _ ih ih' =>
      exact List.forall_mem_cons.mpr
        ⟨ih fun t h => hts t (by simp [h]), ih' fun t h => hts t (by simp [h])⟩

end
end Treewalk
