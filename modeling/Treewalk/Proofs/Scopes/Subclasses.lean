import Treewalk.Proofs.Scopes.Keywords
import Treewalk.Proofs.Scopes.Housing
import Treewalk.Proofs.Scopes.Words

/-!
# Where `super` stands

In an accepted unit, every `super` stands in a method of a class with a superclass, and in no other
class inside of it. Its hops lead to the scope of the methods of this class, unless an import before
it binds the name `super` in a scope in between.
-/
namespace Treewalk

/-! ### Keywords in resolved trees -/

mutual

/-- Keywords have no hops. -/
theorem Expr.keywords_bare (around : List Enclosure) :
    ∀ e : Expr, e.bare.keywords around = e.keywords around
  | .literal _ => by rw [Expr.bare]
  | .name _ => by rw [Expr.bare, Expr.keywords, Expr.keywords]
  | .grouping e | .assign _ e | .unary _ _ e | .get e _ => by
      rw [Expr.bare, Expr.keywords, Expr.keywords, e.keywords_bare]
  | .binary left _ _ right | .logical left _ _ right => by
      rw [Expr.bare, Expr.keywords, Expr.keywords, left.keywords_bare, right.keywords_bare]
  | .call callee _ arguments => by
      rw [Expr.bare, Expr.keywords, Expr.keywords, callee.keywords_bare, exprKeywords_bare]
  | .set object _ value => by
      rw [Expr.bare, Expr.keywords, Expr.keywords, object.keywords_bare, value.keywords_bare]
  | .this _ | .super _ _ => by rw [Expr.bare, Expr.keywords, Expr.keywords, NameUse.bare]
  | .lambda f => by rw [Expr.bare, Expr.keywords, Expr.keywords, f.keywords_bare]

theorem exprKeywords_bare (around : List Enclosure) :
    ∀ es : List Expr, exprKeywords around (bareExprs es) = exprKeywords around es
  | [] => by rw [bareExprs]
  | e :: es => by
      rw [bareExprs, exprKeywords, exprKeywords, e.keywords_bare, exprKeywords_bare around es]

theorem exprKeywords?_bare (around : List Enclosure) :
    ∀ e : Option Expr, exprKeywords? around (bareExpr? e) = exprKeywords? around e
  | none => by rw [bareExpr?]
  | some e => by rw [bareExpr?, exprKeywords?, exprKeywords?, e.keywords_bare]

theorem Stmt.keywords_bare (around : List Enclosure) :
    ∀ s : Stmt, s.bare.keywords around = s.keywords around
  | .expression e | .print e => by rw [Stmt.bare, Stmt.keywords, Stmt.keywords, e.keywords_bare]
  | .var _ _ initial => by rw [Stmt.bare, Stmt.keywords, Stmt.keywords, exprKeywords?_bare]
  | .block body => by rw [Stmt.bare, Stmt.keywords, Stmt.keywords, stmtKeywords_bare]
  | .if condition thenBranch elseBranch => by
      rw [Stmt.bare, Stmt.keywords, Stmt.keywords, condition.keywords_bare,
        thenBranch.keywords_bare, stmtKeywords?_bare]
  | .while condition body increment => by
      rw [Stmt.bare, Stmt.keywords, Stmt.keywords, condition.keywords_bare, body.keywords_bare,
        exprKeywords?_bare]
  | .break _ | .continue _ | .importModule _ _ _ => by
      rw [Stmt.bare]
  | .return _ value => by
      have hvalue : (bareExpr? value).isSome = value.isSome := by cases value <;> rfl
      rw [Stmt.bare, Stmt.keywords, Stmt.keywords, exprKeywords?_bare, hvalue]
  | .function f => by rw [Stmt.bare, Stmt.keywords, Stmt.keywords, f.keywords_bare]
  | .class _ superclass methods => by
      rw [Stmt.bare, Stmt.keywords, Stmt.keywords, Option.isSome_map, methodKeywords_bare]

theorem stmtKeywords_bare (around : List Enclosure) :
    ∀ ss : List Stmt, stmtKeywords around (bareStmts ss) = stmtKeywords around ss
  | [] => by rw [bareStmts]
  | s :: ss => by
      rw [bareStmts, stmtKeywords, stmtKeywords, s.keywords_bare, stmtKeywords_bare around ss]

theorem stmtKeywords?_bare (around : List Enclosure) :
    ∀ s : Option Stmt, stmtKeywords? around (bareStmt? s) = stmtKeywords? around s
  | none => by rw [bareStmt?]
  | some s => by rw [bareStmt?, stmtKeywords?, stmtKeywords?, s.keywords_bare]

theorem FunctionDecl.keywords_bare (around : List Enclosure) :
    ∀ f : FunctionDecl, f.bare.keywords around = f.keywords around
  | .mk _ _ body => by
      rw [FunctionDecl.bare, FunctionDecl.keywords, FunctionDecl.keywords, stmtKeywords_bare]

theorem methodKeywords_bare (around : List Enclosure) :
    ∀ fs : List FunctionDecl, methodKeywords around (bareFunctions fs) = methodKeywords around fs
  | [] => by rw [bareFunctions]
  | f :: fs => by
      have hmethod : f.bare.asMethod = f.asMethod := by
        unfold FunctionDecl.asMethod
        rw [FunctionDecl.displayName_bare]
      rw [bareFunctions, methodKeywords, methodKeywords, hmethod, f.keywords_bare,
        methodKeywords_bare around fs]

end

/-- No keyword is misplaced in an accepted unit. -/
theorem UnitText.keywords_placed {t : UnitText} (h : t.unit.ok = true) :
    ∀ u ∈ stmtKeywords [] t.unit.statements, u.keyword.fault? u.around = none := by
  obtain ⟨hread, hclean⟩ := notices_ok h
  have hnone : misplacements (stmtKeywords [] t.parsed.statements) = [] := by
    have hall := (misplaced_keywords hread).resolve_right fun hcut => not_cutShort hclean hcut.1
    rw [← hall]
    exact errorsOf_nil hclean
  have hsame : stmtKeywords [] t.unit.statements = stmtKeywords [] t.parsed.statements := by
    rw [← stmtKeywords_bare, bareStmts_eq, bare_statements h, ← bareStmts_eq, stmtKeywords_bare]
  intro u hu
  rw [hsame] at hu
  exact Option.map_eq_none_iff.mp (List.filterMap_eq_nil_iff.mp hnone u hu)

/-! ### Enclosing classes -/

/-- The keywords in a node. -/
def Node.keywords (around : List Enclosure) : Node → List KeywordUse
  | .expr e => e.keywords around
  | .stmt s => s.keywords around
  | .function f => f.keywords around

section
variable {around : List Enclosure} {u : KeywordUse} {m : Node}

theorem mem_exprKeywords {es : List Expr} (hm : m ∈ es.map Node.expr)
    (hu : u ∈ m.keywords around) : u ∈ exprKeywords around es := by
  obtain ⟨e, he, rfl⟩ := List.mem_map.mp hm
  rw [Resolve.exprKeywords_eq]
  exact List.mem_flatMap.mpr ⟨e, he, hu⟩

theorem mem_exprKeywords? {e : Option Expr} (hm : m ∈ e.toList.map Node.expr)
    (hu : u ∈ m.keywords around) : u ∈ exprKeywords? around e := by
  obtain ⟨e, he, rfl⟩ := List.mem_map.mp hm
  rw [Resolve.exprKeywords?_eq]
  exact List.mem_flatMap.mpr ⟨e, he, hu⟩

theorem mem_stmtKeywords? {s : Option Stmt} (hm : m ∈ s.toList.map Node.stmt)
    (hu : u ∈ m.keywords around) : u ∈ stmtKeywords? around s := by
  obtain ⟨s, hs, rfl⟩ := List.mem_map.mp hm
  rw [Resolve.stmtKeywords?_eq]
  exact List.mem_flatMap.mpr ⟨s, hs, hu⟩

theorem mem_stmtKeywords {ss : List Stmt} {s : Stmt} (hs : s ∈ ss) (hu : u ∈ s.keywords around) :
    u ∈ stmtKeywords around ss := by
  rw [Resolve.stmtKeywords_eq]
  exact List.mem_flatMap.mpr ⟨s, hs, hu⟩

theorem mem_methodKeywords {fs : List FunctionDecl} {f : FunctionDecl} (hf : f ∈ fs)
    (hu : u ∈ f.keywords (f.asMethod :: around)) : u ∈ methodKeywords around fs := by
  rw [Resolve.methodKeywords_eq]
  exact List.mem_flatMap.mpr ⟨f, hf, hu⟩

end

/-- The keywords in a part of a node are in the node. No class is around the part that is not around
the node. -/
theorem Node.keywords_part {n m : Node} (hm : m ∈ n.parts) (around : List Enclosure) :
    ∃ inner, (∀ e ∈ inner, e.isClass = false) ∧
      ∀ u ∈ m.keywords (inner ++ around), u ∈ n.keywords around := by
  cases n with
  | function f => cases hm
  | expr e =>
      cases e with
      | lambda f =>
          obtain rfl := List.mem_singleton.mp hm
          exact ⟨[.lambda], List.forall_mem_singleton.mpr rfl, fun u hu => hu⟩
      | literal | name | this | super => cases hm
      | grouping | assign | unary | get =>
          obtain rfl := List.mem_singleton.mp hm
          exact ⟨[], List.forall_mem_nil _, fun u hu => hu⟩
      | binary left op token right | logical left op token right =>
          refine ⟨[], List.forall_mem_nil _, fun u hu => ?_⟩
          rcases List.mem_pair.mp hm with rfl | rfl
          · exact List.mem_append_left _ hu
          · exact List.mem_append_right _ hu
      | set object name value =>
          refine ⟨[], List.forall_mem_nil _, fun u hu => ?_⟩
          rcases List.mem_pair.mp hm with rfl | rfl
          · exact List.mem_append_right _ hu
          · exact List.mem_append_left _ hu
      | call callee paren arguments =>
          refine ⟨[], List.forall_mem_nil _, fun u hu => ?_⟩
          rcases List.mem_cons.mp hm with rfl | hm
          · exact List.mem_append_left _ hu
          · exact List.mem_append_right _ (mem_exprKeywords hm hu)
  | stmt s =>
      cases s with
      | expression | print =>
          obtain rfl := List.mem_singleton.mp hm
          exact ⟨[], List.forall_mem_nil _, fun u hu => hu⟩
      | «if» condition thenBranch elseBranch =>
          refine ⟨[], List.forall_mem_nil _, fun u hu => ?_⟩
          rcases List.mem_cons.mp hm with rfl | hm
          · exact List.mem_append_left _ hu
          · refine List.mem_append_right _ ?_
            rcases List.mem_cons.mp hm with rfl | hm
            · exact List.mem_append_left _ hu
            · exact List.mem_append_right _ (mem_stmtKeywords? hm hu)
      | «while» condition body increment =>
          refine ⟨[.loop], List.forall_mem_singleton.mpr rfl, fun u hu => ?_⟩
          rcases List.mem_cons.mp hm with rfl | hm
          · exact List.mem_append_left _ hu
          · refine List.mem_append_right _ ?_
            rcases List.mem_cons.mp hm with rfl | hm
            · exact List.mem_append_left _ hu
            · exact List.mem_append_right _ (mem_exprKeywords? hm hu)
      | «return» keyword value =>
          exact ⟨[], List.forall_mem_nil _,
            fun u hu => List.mem_cons_of_mem _ (mem_exprKeywords? hm hu)⟩
      | «class» name superclass methods =>
          cases superclass with
          | none => cases hm
          | some use =>
              obtain rfl := List.mem_singleton.mp hm
              exact ⟨[], List.forall_mem_nil _, fun u hu => nomatch hu⟩
      | _ => cases hm

/-- The statements that stand in the scope of a construct. -/
def Construct.body? : Construct → Option (List Stmt)
  | .block body => some body
  | .function f => some f.body
  | .this _ | .super _ => none

/-- A position stands in a method of a class with a superclass, and in no other class inside of it.
The scope of the receiver is so many hops outward; the scope of the superclass is the next one. -/
structure InSubclass (st : Stmt) (q : Position) (hops : Nat) (outer : List Frame) (name : Token)
    (use : NameUse) (methods : List FunctionDecl) (f : FunctionDecl) : Prop where
  «class» : Within ⟨[], .stmt st⟩ ⟨outer, .stmt (.class name (some use) methods)⟩
  method : f ∈ methods
  frames : q.frames.drop hops =
    .receiver f :: .parent methods :: declaring [(name.lexeme, .variable)] outer
  within : Within
    ⟨.receiver f :: .parent methods :: declaring [(name.lexeme, .variable)] outer, .function f⟩ q
  inmost : ∀ c ∈ (q.frames.map Frame.construct).take hops, c.body?.isSome = true
  inside : hops = 0 → ∃ g, q.node = .function g

namespace InSubclass
variable {st : Stmt} {p q : Position} {hops : Nat} {outer : List Frame} {name : Token}
  {use : NameUse} {methods : List FunctionDecl} {f : FunctionDecl}

theorem getElem?_receiver (h : InSubclass st q hops outer name use methods f) :
    q.frames[hops]? = some (.receiver f) := by
  rw [← List.head?_drop, h.frames]
  rfl

theorem getElem?_parent (h : InSubclass st q hops outer name use methods f) :
    q.frames[hops + 1]? = some (.parent methods) := by
  have hget := congrArg (·[1]?) h.frames
  rw [List.getElem?_drop] at hget
  exact hget

/-- Further inside with the same constructs around. -/
theorem inner (h : InSubclass st p hops outer name use methods f) (hi : Inner p q)
    (hdrop : q.frames.drop hops = p.frames.drop hops)
    (hconstructs : q.frames.map Frame.construct = p.frames.map Frame.construct)
    (hpos : hops ≠ 0) : InSubclass st q hops outer name use methods f where
  «class» := h.class
  method := h.method
  frames := hdrop.trans h.frames
  within := h.within.tail hi
  inmost := hconstructs ▸ h.inmost
  inside h := (hpos h).elim

/-- Further inside in a block or function. -/
theorem enter (h : InSubclass st p hops outer name use methods f) {g : Frame} {n : Node}
    (hi : Inner p ⟨g :: p.frames, n⟩) (hg : g.construct.body?.isSome = true) :
    InSubclass st ⟨g :: p.frames, n⟩ (hops + 1) outer name use methods f where
  «class» := h.class
  method := h.method
  frames := h.frames
  within := h.within.tail hi
  inmost c hc := by
    rw [List.map_cons, List.take_succ_cons] at hc
    rcases List.mem_cons.mp hc with rfl | hc
    · exact hg
    · exact h.inmost c hc
  inside h := nomatch h

end InSubclass

theorem find?_isClass_append {inner around : List Enclosure}
    (h : ∀ e ∈ inner, e.isClass = false) :
    (inner ++ around).find? Enclosure.isClass = around.find? Enclosure.isClass := by
  have hnone : inner.find? Enclosure.isClass = none :=
    List.find?_eq_none.mpr fun e he => by rw [h e he]; exact Bool.false_ne_true
  rw [List.find?_append, hnone, Option.none_or]

/-- Where the innermost class around a position has a superclass, the position stands in a method of
it. -/
theorem Within.enclosed {st : Stmt} {q : Position} (h : Within ⟨[], .stmt st⟩ q) :
    ∃ around, (∀ u ∈ q.node.keywords around, u ∈ st.keywords []) ∧
      (around.find? Enclosure.isClass = some (.class true) →
        ∃ hops outer name use methods f, InSubclass st q hops outer name use methods f) := by
  induction h with
  | refl => exact ⟨[], fun u hu => hu, fun hf => nomatch hf⟩
  | @tail p q hp hi ih =>
      obtain ⟨around, hkeywords, hclass⟩ := ih
      cases hi with
      | @part frames n m hm =>
          obtain ⟨inner, hinner, hpart⟩ := n.keywords_part hm around
          refine ⟨inner ++ around, fun u hu => hkeywords u (hpart u hu), fun hf => ?_⟩
          rw [find?_isClass_append hinner] at hf
          obtain ⟨hops, outer, name, use, methods, f, hin⟩ := hclass hf
          refine ⟨hops, outer, name, use, methods, f, hin.inner (.part hm) rfl rfl fun he => ?_⟩
          obtain ⟨g, hg⟩ := hin.inside he
          simp only at hg
          subst hg
          cases hm
      | @initial frames mutability name e =>
          refine ⟨around, hkeywords, fun hf => ?_⟩
          obtain ⟨hops, outer, name', use, methods, f, hin⟩ := hclass hf
          cases hops with
          | zero => exact nomatch hin.inside rfl
          | succ n =>
              exact ⟨n + 1, outer, name', use, methods, f, hin.inner .initial
                (drop_succ_beginning ..) (constructs_beginning ..) (Nat.succ_ne_zero n)⟩
      | @block frames before after s =>
          refine ⟨around, fun u hu => hkeywords u ?_, fun hf => ?_⟩
          · exact mem_stmtKeywords (List.mem_append_right _ (List.mem_cons_self ..)) hu
          · obtain ⟨hops, outer, name, use, methods, f, hin⟩ := hclass hf
            exact ⟨hops + 1, outer, name, use, methods, f, hin.enter .block rfl⟩
      | @declared frames f =>
          refine ⟨.function :: around, hkeywords, fun hf => ?_⟩
          obtain ⟨hops, outer, name, use, methods, f', hin⟩ := hclass hf
          cases hops with
          | zero => exact nomatch hin.inside rfl
          | succ n =>
              exact ⟨n + 1, outer, name, use, methods, f', hin.inner .declared
                (drop_succ_declaring ..) (constructs_declaring ..) (Nat.succ_ne_zero n)⟩
      | @body frames f before after s hbody =>
          refine ⟨around, fun u hu => hkeywords u ?_, fun hf => ?_⟩
          · change u ∈ f.keywords around
            cases f with
            | mk name parameters body =>
                have hs : s ∈ body := by
                  change body = _ at hbody
                  rw [hbody]
                  exact List.mem_append_right _ (List.mem_cons_self ..)
                exact mem_stmtKeywords hs hu
          · obtain ⟨hops, outer, name, use, methods, f', hin⟩ := hclass hf
            exact ⟨hops + 1, outer, name, use, methods, f', hin.enter (.body hbody) rfl⟩
      | @method frames name methods f hf =>
          exact ⟨f.asMethod :: .class false :: around,
            fun u hu => hkeywords u (mem_methodKeywords hf hu), fun hc => nomatch hc⟩
      | @inherited frames name use methods f hf =>
          exact ⟨f.asMethod :: .class true :: around,
            fun u hu => hkeywords u (mem_methodKeywords hf hu),
            fun _ => ⟨0, frames, name, use, methods, f, hp, hf, rfl, .refl,
              fun _ hc => (nomatch hc), fun _ => ⟨f, rfl⟩⟩⟩

/-! ### Imports that bind `super` -/

/-- The node that a construct with statements is. -/
def Construct.node? : Construct → Option Node
  | .block body => some (.stmt (.block body))
  | .function f => some (.function f)
  | .this _ | .super _ => none

theorem Construct.isSome_node? (c : Construct) : c.node?.isSome = c.body?.isSome := by
  cases c <;> rfl

/-- The constructs around a position stand in the same statement. -/
theorem Within.constructs {st : Stmt} {q : Position} (h : Within ⟨[], .stmt st⟩ q) :
    ∀ c ∈ q.frames.map Frame.construct, ∀ n ∈ c.node?,
      ∃ outer, Within ⟨[], .stmt st⟩ ⟨outer, n⟩ := by
  induction h with
  | refl => exact fun c hc => nomatch hc
  | @tail p q hp hi ih =>
      intro c hc n hn
      cases hi with
      | part => exact ih c hc n hn
      | initial =>
          rw [constructs_beginning] at hc
          exact ih c hc n hn
      | declared =>
          rw [constructs_declaring] at hc
          exact ih c hc n hn
      | block =>
          rcases List.mem_cons.mp hc with rfl | hc
          · cases hn
            exact ⟨_, hp⟩
          · exact ih c hc n hn
      | body =>
          rcases List.mem_cons.mp hc with rfl | hc
          · cases hn
            exact ⟨_, hp⟩
          · exact ih c hc n hn
      | method =>
          rw [List.map_cons, constructs_declaring] at hc
          rcases List.mem_cons.mp hc with rfl | hc
          · cases hn
          · exact ih c hc n hn
      | inherited =>
          rw [List.map_cons, List.map_cons, constructs_declaring] at hc
          rcases List.mem_cons.mp hc with rfl | hc
          · cases hn
          · rcases List.mem_cons.mp hc with rfl | hc
            · cases hn
            · exact ih c hc n hn

/-- Only an import declares a reserved word. -/
theorem Stmt.importModule_of_declares {st : Stmt} (hst : (Node.stmt st).Named) {x : String}
    (hx : TokenKind.ofWord x ≠ .identifier) (h : x ∈ st.declares.map Prod.fst) :
    ∃ keyword name as, st = .importModule keyword name as ∧ importBinding name as = x := by
  cases st with
  | importModule keyword name as =>
      exact ⟨keyword, name, as, rfl, (List.mem_singleton.mp h).symm⟩
  | var | function | «class» => exact (hx (hst.here x h)).elim
  | _ => cases h

/-- Only imports declare reserved words in the scope of a block or function. -/
theorem Construct.importModule_of_declares {c : Construct} {n : Node} (hc : c.node? = some n)
    (hn : n.Named) {x : String} (hx : TokenKind.ofWord x ≠ .identifier)
    (h : x ∈ c.declares.map Prod.fst) : ∃ body keyword name as, c.body? = some body ∧
      .importModule keyword name as ∈ body ∧ importBinding name as = x := by
  have himport : ∀ body : List Stmt, (∀ st ∈ body, (Node.stmt st).Named) →
      x ∈ (declarations body).map Prod.fst → ∃ keyword name as,
        .importModule keyword name as ∈ body ∧ importBinding name as = x := by
    intro body hnamed hbody
    obtain ⟨d, hd, rfl⟩ := List.mem_map.mp hbody
    obtain ⟨st, hst, hd⟩ := List.mem_flatMap.mp hd
    obtain ⟨keyword, name, as, rfl, hx⟩ :=
      Stmt.importModule_of_declares (hnamed st hst) hx (List.mem_map_of_mem hd)
    exact ⟨keyword, name, as, hst, hx⟩
  cases c with
  | block body =>
      cases hc
      obtain ⟨keyword, name, as, hmem, he⟩ := himport body hn.block h
      exact ⟨body, keyword, name, as, rfl, hmem, he⟩
  | function f =>
      cases hc
      rw [Construct.declares, List.map_append] at h
      rcases List.mem_append.mp h with hparameter | hbody
      · unfold FunctionDecl.bindings at hparameter
        rw [List.map_map] at hparameter
        exact (hx (hn.here x hparameter)).elim
      · obtain ⟨keyword, name, as, hmem, he⟩ := himport f.body hn.body hbody
        exact ⟨f.body, keyword, name, as, rfl, hmem, he⟩
  | this | super => cases hc

theorem mem_of_lookup {α β : Type} [BEq α] [LawfulBEq α] {x : α} {y : β} {l : List (α × β)}
    (h : l.lookup x = some y) : (x, y) ∈ l := by
  induction l with
  | nil => cases h
  | cons e l ih =>
      rw [List.lookup_cons] at h
      split at h
      · next he =>
          cases h
          rw [eq_of_beq he]
          exact List.mem_cons_self ..
      · exact List.mem_cons_of_mem _ (ih h)

theorem TokenKind.eq_of_ofWord {x : String} (h : ofWord x = .super) : x = "super" := by
  have hkeywords : ∀ e ∈ keywords, e.2 = TokenKind.super → e.1 = "super" := by decide
  unfold ofWord at h
  cases hl : keywords.lookup x with
  | none =>
      rw [hl] at h
      cases h
  | some kind =>
      rw [hl] at h
      exact hkeywords (x, kind) (mem_of_lookup hl) h

/-- An import that binds a name stands in the scope that is so many hops outward. -/
def ImportBinds (frames : List Frame) (hops : Nat) (name : String) : Prop :=
  ∃ g body keyword token as, frames[hops]? = some g ∧ g.construct.body? = some body ∧
    .importModule keyword token as ∈ body ∧ importBinding token as = name

namespace UnitText
variable {t : UnitText} {st : Stmt} {frames : List Frame} {use : NameUse} {method : Token}

/-- Every `super` in an accepted unit stands in a method of a class with a superclass. -/
theorem super_enclosed (h : t.unit.ok = true) (hst : st ∈ t.unit.statements)
    (hq : Within ⟨[], .stmt st⟩ ⟨frames, .expr (.super use method)⟩) :
    ∃ hops outer name sup methods f,
      InSubclass st ⟨frames, .expr (.super use method)⟩ hops outer name sup methods f := by
  obtain ⟨around, hkeywords, hclass⟩ := hq.enclosed
  apply hclass
  have hmem : ⟨.super, use.name, around⟩ ∈ stmtKeywords [] t.unit.statements :=
    mem_stmtKeywords hst (hkeywords _ (List.mem_singleton_self _))
  have hplaced := keywords_placed h _ hmem
  unfold Keyword.fault? at hplaced
  simp only at hplaced
  split at hplaced
  · cases hplaced
  · cases hplaced
  · next e hne he =>
      have hisClass := List.find?_some he
      cases e with
      | «class» inherits =>
          cases inherits with
          | false => exact (hne rfl).elim
          | true => exact he
      | _ => cases hisClass

/-- The word is `super`. -/
theorem super_lexeme (h : t.unit.ok = true) (hst : st ∈ t.unit.statements)
    (hq : Within ⟨[], .stmt st⟩ ⟨frames, .expr (.super use method)⟩) :
    use.name.lexeme = "super" := by
  obtain ⟨n, hformed, hbare⟩ := formed h hst hq
  obtain ⟨e, rfl, he⟩ := Node.eq_expr_of_bare hbare
  cases e with
  | super use' method' =>
      simp only [Expr.bare, Expr.super.injEq] at he
      rw [← NameUse.name_of_bare he.1]
      exact TokenKind.eq_of_ofWord hformed
  | _ => simp only [Expr.bare, reduceCtorEq] at he

/-- The hops of `super` lead to the scope of the superclass, unless an import in a scope in between
binds the name. -/
theorem super_hops (h : t.unit.ok = true) (hst : st ∈ t.unit.statements)
    (hq : Within ⟨[], .stmt st⟩ ⟨frames, .expr (.super use method)⟩) {hops : Nat}
    {outer : List Frame} {name : Token} {sup : NameUse} {methods : List FunctionDecl}
    {f : FunctionDecl}
    (hin : InSubclass st ⟨frames, .expr (.super use method)⟩ hops outer name sup methods f) :
    use.hops = some (hops + 1) ∨
      ∃ m < hops, use.hops = some m ∧ ImportBinds frames m "super" := by
  have hword := super_lexeme h hst hq
  obtain ⟨before, after, hsplit⟩ := List.append_of_mem hst
  have hfits := (placed h hsplit).mono fun _ hplaced => hplaced.fits
  have hlexical : use.Lexical .super frames := hfits _ hq
  have hreceiver := hin.getElem?_receiver
  have hparent := hin.getElem?_parent
  have hoffers : (Frame.parent methods).Offers .super use.name.lexeme (hops + 1) := by
    rw [hword]
    exact .inl (List.mem_singleton_self _)
  obtain ⟨m, hm⟩ := Innermost.exists_of (P := fun m f => f.Offers .super use.name.lexeme m)
    hparent hoffers
  have huse := (hlexical m).mpr hm
  obtain ⟨⟨g, hg, hknows⟩, hnone⟩ := hm
  rcases Nat.lt_trichotomy m (hops + 1) with hlt | rfl | hgt
  · have hne : m ≠ hops := by
      rintro rfl
      rw [hreceiver] at hg
      cases hg
      rw [hword] at hknows
      rcases hknows with hknows | ⟨hknows, -⟩
      · exact absurd (List.mem_singleton.mp hknows) (by decide)
      · cases hknows
    have hm : m < hops := Nat.lt_of_le_of_ne (Nat.le_of_lt_succ hlt) hne
    -- The scope is that of a block or function, where only an import can declare the name.
    have hinner : g.construct ∈ (frames.map Frame.construct).take hops := by
      refine List.mem_of_getElem? (i := m) ?_
      rw [List.getElem?_take_of_lt hm, List.getElem?_map, hg]
      rfl
    obtain ⟨n, hn⟩ := Option.isSome_iff_exists.mp
      (g.construct.isSome_node?.trans (hin.inmost _ hinner))
    obtain ⟨around, hwithin⟩ := hq.constructs _ (List.mem_of_mem_take hinner) n hn
    have hnamed : n.Named := (named h hst).within [] hwithin
    have hdeclares : "super" ∈ g.construct.declares.map Prod.fst := by
      rw [← hword]
      exact ((hq.housed hfits).frames g (List.mem_of_getElem? hg)).knows
        (hknows.imp_right And.left)
    obtain ⟨body, keyword, token, as, hbody, himport, hbinds⟩ :=
      Construct.importModule_of_declares hn hnamed (by decide) hdeclares
    exact .inr ⟨m, hm, huse, g, body, keyword, token, as, hg, hbody, himport, hbinds⟩
  · exact .inl huse
  · exact (hnone _ hgt _ hparent hoffers).elim

end UnitText
end Treewalk
