import Mathlib.Data.Nat.Find
import Mathlib.Logic.Relation
import Treewalk.Tree

/-!
# Lexical positions

A construct that has a scope declares names in it. Around a node stand frames, innermost first: one
for each construct, with the names declared in it before the node, and with the name whose initial
value the node is part of. The frames of a node depend on nothing but the tree it stands in.
-/
namespace Treewalk

/-- The constructs that have scopes. Every method has a scope for its receiver around it, and all
methods of a class with a superclass have one for the superclass around them. -/
inductive Construct
  | block (body : List Stmt)
  | function (f : FunctionDecl)
  | this (method : FunctionDecl)
  | super (methods : List FunctionDecl)

/-- What a statement declares in the scope it stands in. -/
def Stmt.declares : Stmt → List (String × Mutability)
  | .var mutability name _ => [(name.lexeme, mutability)]
  | .function f => [(f.displayName, .variable)]
  | .class name _ _ => [(name.lexeme, .variable)]
  | .importModule _ name as => [(importBinding name as, .variable)]
  | _ => []

/-- What statements declare. -/
def declarations (ss : List Stmt) : List (String × Mutability) := ss.flatMap Stmt.declares

/-- What the parameters of a function declare. -/
def FunctionDecl.bindings (f : FunctionDecl) : List (String × Mutability) :=
  f.parameters.map fun p => (p.lexeme, .variable)

namespace Construct

/-- All that is declared in the scope of a construct. -/
def declares : Construct → List (String × Mutability)
  | .block body => declarations body
  | .function f => f.bindings ++ declarations f.body
  | .this _ => [("this", .variable)]
  | .super _ => [("super", .variable)]

end Construct

/-- A construct around a node. -/
structure Frame where
  construct : Construct
  /-- What is declared in it before the node. -/
  bound : List (String × Mutability)
  /-- The name whose initial value the node is part of. -/
  pending : Option String := none

namespace Frame

/-- The names declared before the node. -/
def names (f : Frame) : List String := f.bound.map Prod.fst

/-- A name is declared, or its initial value is being made. -/
def Knows (f : Frame) (name : String) : Prop := name ∈ f.names ∨ f.pending = some name

/-- The scope for the receiver of a method. -/
def receiver (method : FunctionDecl) : Frame := ⟨.this method, [("this", .variable)], none⟩

/-- The scope for the superclass of a class. -/
def parent (methods : List FunctionDecl) : Frame := ⟨.super methods, [("super", .variable)], none⟩

end Frame

/-- The innermost frame with more names declared. -/
def declaring (ds : List (String × Mutability)) : List Frame → List Frame
  | [] => []
  | f :: outer => { f with bound := f.bound ++ ds } :: outer

/-- The innermost frame in the initial value of a name. -/
def beginning (name : String) : List Frame → List Frame
  | [] => []
  | f :: outer => { f with pending := some name } :: outer

/-- The innermost of the frames that have a property, which may depend on how far out they are. -/
def Innermost (P : Nat → Frame → Prop) (frames : List Frame) (n : Nat) : Prop :=
  (∃ f, frames[n]? = some f ∧ P n f) ∧ ∀ m < n, ∀ f, frames[m]? = some f → ¬P m f

namespace Innermost
variable {P Q : Nat → Frame → Prop} {f : Frame} {frames : List Frame} {n : Nat}

theorem not_nil : ¬Innermost P [] n := fun h => by
  obtain ⟨⟨f, hf, -⟩, -⟩ := h
  cases hf

theorem cons_zero : Innermost P (f :: frames) 0 ↔ P 0 f := by
  constructor
  · rintro ⟨⟨g, hg, hP⟩, -⟩
    cases hg
    exact hP
  · exact fun h => ⟨⟨f, rfl, h⟩, fun m hm => (Nat.not_lt_zero m hm).elim⟩

theorem cons_succ :
    Innermost P (f :: frames) (n + 1) ↔ ¬P 0 f ∧ Innermost (fun m => P (m + 1)) frames n := by
  constructor
  · rintro ⟨hlast, hnone⟩
    exact ⟨hnone 0 (Nat.succ_pos n) f rfl, hlast, fun m hm => hnone (m + 1) (Nat.succ_lt_succ hm)⟩
  · rintro ⟨hfirst, hlast, hnone⟩
    refine ⟨hlast, fun m hm g hg => ?_⟩
    cases m with
    | zero =>
        cases hg
        exact hfirst
    | succ m => exact hnone m (Nat.lt_of_succ_lt_succ hm) g hg

theorem congr (h : ∀ m f, frames[m]? = some f → (P m f ↔ Q m f)) :
    Innermost P frames n ↔ Innermost Q frames n := by
  unfold Innermost
  constructor
  · rintro ⟨⟨f, hf, hP⟩, hnone⟩
    exact ⟨⟨f, hf, (h n f hf).mp hP⟩, fun m hm g hg => mt (h m g hg).mpr (hnone m hm g hg)⟩
  · rintro ⟨⟨f, hf, hQ⟩, hnone⟩
    exact ⟨⟨f, hf, (h n f hf).mpr hQ⟩, fun m hm g hg => mt (h m g hg).mp (hnone m hm g hg)⟩

/-- If one frame has the property, then one of those is the innermost. -/
theorem exists_of (hf : frames[n]? = some f) (h : P n f) : ∃ m, Innermost P frames m := by
  classical
  have hsome : ∃ m f, frames[m]? = some f ∧ P m f := ⟨n, f, hf, h⟩
  refine ⟨Nat.find hsome, Nat.find_spec hsome, fun m hm g hg hP => ?_⟩
  exact Nat.find_min hsome hm ⟨g, hg, hP⟩

end Innermost

@[simp] theorem length_declaring (ds : List (String × Mutability)) (frames : List Frame) :
    (declaring ds frames).length = frames.length := by cases frames <;> rfl

theorem declaring_nil (frames : List Frame) : declaring [] frames = frames := by
  cases frames with
  | nil => rfl
  | cons f outer => simp only [declaring, List.append_nil]

theorem declaring_append (ds ds' : List (String × Mutability)) (frames : List Frame) :
    declaring ds' (declaring ds frames) = declaring (ds ++ ds') frames := by
  cases frames with
  | nil => rfl
  | cons f outer => simp only [declaring, List.append_assoc]

theorem constructs_declaring (ds : List (String × Mutability)) (frames : List Frame) :
    (declaring ds frames).map Frame.construct = frames.map Frame.construct := by
  cases frames <;> rfl

theorem constructs_beginning (name : String) (frames : List Frame) :
    (beginning name frames).map Frame.construct = frames.map Frame.construct := by
  cases frames <;> rfl

/-- The constants among what is declared. -/
def constantNames (ds : List (String × Mutability)) : List String :=
  (ds.filter fun d => d.2 = .constant).map Prod.fst

theorem mem_constantNames {x : String} {ds : List (String × Mutability)} :
    x ∈ constantNames ds ↔ (x, .constant) ∈ ds := by
  simp [constantNames]

/-- The global constants, with those that declarations outside all frames add. -/
def globally (K : List String) (ds : List (String × Mutability)) : List Frame → List String
  | [] => K ++ constantNames ds
  | _ :: _ => K

theorem globally_nil (K : List String) (frames : List Frame) : globally K [] frames = K := by
  cases frames with
  | nil => exact List.append_nil K
  | cons f outer => rfl

theorem globally_variable (K : List String) (name : String) (frames : List Frame) :
    globally K [(name, .variable)] frames = K := by
  cases frames with
  | nil => exact List.append_nil K
  | cons f outer => rfl

theorem globally_append (K : List String) (ds ds' : List (String × Mutability))
    (frames : List Frame) :
    globally (globally K ds frames) ds' (declaring ds frames) = globally K (ds ++ ds') frames := by
  cases frames with
  | nil => simp [globally, declaring, constantNames]
  | cons f outer => rfl

/-- No initial value is being made in the innermost frame. -/
def Settled : List Frame → Prop
  | [] => True
  | f :: _ => f.pending = none

theorem settled_new (c : Construct) (bound : List (String × Mutability)) (frames : List Frame) :
    Settled (⟨c, bound, none⟩ :: frames) := rfl

theorem Settled.declaring {frames : List Frame} (h : Settled frames)
    (ds : List (String × Mutability)) : Settled (declaring ds frames) := by
  cases frames with
  | nil => trivial
  | cons f outer => exact h

inductive Node
  | expr (e : Expr)
  | stmt (s : Stmt)
  | function (f : FunctionDecl)

/-- The parts of an expression. -/
def Expr.parts : Expr → List Node
  | .literal _ | .name _ | .this _ | .super _ _ => []
  | .grouping e | .assign _ e | .unary _ _ e | .get e _ => [.expr e]
  | .binary e _ _ e' | .logical e _ _ e' | .set e _ e' => [.expr e, .expr e']
  | .call e _ es => .expr e :: es.map .expr
  | .lambda f => [.function f]

/-- The parts of a statement that see the same names as the statement. -/
def Stmt.parts : Stmt → List Node
  | .expression e | .print e => [.expr e]
  | .if e s s' => .expr e :: .stmt s :: s'.toList.map .stmt
  | .while e s e' => .expr e :: .stmt s :: e'.toList.map .expr
  | .return _ e => e.toList.map .expr
  | .class _ (some use) _ => [.expr (.name use)]
  | _ => []

def Node.parts : Node → List Node
  | .expr e => e.parts
  | .stmt s => s.parts
  | .function _ => []

/-- A statement stands where no initial value is being made. -/
def Node.Ready (frames : List Frame) : Node → Prop
  | .stmt _ => Settled frames
  | _ => True

theorem Node.Ready.part {frames : List Frame} {n m : Node} (h : n.Ready frames)
    (hm : m ∈ n.parts) : m.Ready frames := by
  cases m with
  | expr e => trivial
  | function f => trivial
  | stmt s =>
      cases n with
      | expr e => cases e <;> simp [Node.parts, Expr.parts] at hm
      | stmt t => exact h
      | function f => cases hm

/-- A node with the frames around it. -/
structure Position where
  frames : List Frame
  node : Node

/-- One step inward. A name that is declared before its value is made is known in the value. -/
inductive Inner : Position → Position → Prop
  | part {frames : List Frame} {n m : Node} : m ∈ n.parts → Inner ⟨frames, n⟩ ⟨frames, m⟩
  | initial {frames : List Frame} {mutability : Mutability} {name : Token} {e : Expr} :
      Inner ⟨frames, .stmt (.var mutability name (some e))⟩
        ⟨beginning name.lexeme frames, .expr e⟩
  | block {frames : List Frame} {before after : List Stmt} {s : Stmt} :
      Inner ⟨frames, .stmt (.block (before ++ s :: after))⟩
        ⟨⟨.block (before ++ s :: after), declarations before, none⟩ :: frames, .stmt s⟩
  | declared {frames : List Frame} {f : FunctionDecl} :
      Inner ⟨frames, .stmt (.function f)⟩ ⟨declaring (Stmt.function f).declares frames, .function f⟩
  | body {frames : List Frame} {f : FunctionDecl} {before after : List Stmt} {s : Stmt} :
      f.body = before ++ s :: after →
      Inner ⟨frames, .function f⟩
        ⟨⟨.function f, f.bindings ++ declarations before, none⟩ :: frames, .stmt s⟩
  | method {frames : List Frame} {name : Token} {methods : List FunctionDecl}
      {f : FunctionDecl} : f ∈ methods →
      Inner ⟨frames, .stmt (.class name none methods)⟩
        ⟨.receiver f :: declaring [(name.lexeme, .variable)] frames, .function f⟩
  | inherited {frames : List Frame} {name : Token} {use : NameUse}
      {methods : List FunctionDecl} {f : FunctionDecl} : f ∈ methods →
      Inner ⟨frames, .stmt (.class name (some use) methods)⟩
        ⟨.receiver f :: .parent methods :: declaring [(name.lexeme, .variable)] frames, .function f⟩

/-- Any number of steps inward. -/
abbrev Within : Position → Position → Prop := Relation.ReflTransGen Inner

/-- A property holds of a position and of all within it. -/
def Everywhere (P : Position → Prop) (p : Position) : Prop := ∀ q, Within p q → P q

namespace Everywhere
variable {P Q : Position → Prop} {p q : Position}

theorem here (h : Everywhere P p) : P p := h p .refl

theorem within (h : Everywhere P p) (hq : Within p q) : Everywhere P q :=
  fun r hr => h r (hq.trans hr)

theorem inner (h : Everywhere P p) (hq : Inner p q) : Everywhere P q := h.within (.single hq)

theorem mono (h : Everywhere P p) (hP : ∀ q, P q → Q q) : Everywhere Q p :=
  fun q hq => hP q (h q hq)

theorem intro (h : P p) (hi : ∀ q, Inner p q → Everywhere P q) : Everywhere P p := by
  intro q hq
  rcases hq.cases_head with rfl | ⟨r, hr, hq⟩
  · exact h
  · exact hi r hr q hq

end Everywhere

/-- What is inside a node does not depend on what is around it. -/
theorem Inner.anywhere {frames : List Frame} {n : Node} {q : Position}
    (h : Inner ⟨frames, n⟩ q) (frames' : List Frame) :
    ∃ outer, Inner ⟨frames', n⟩ ⟨outer, q.node⟩ := by
  cases h with
  | part hm => exact ⟨_, .part hm⟩
  | initial => exact ⟨_, .initial⟩
  | block => exact ⟨_, .block⟩
  | declared => exact ⟨_, .declared⟩
  | body hb => exact ⟨_, .body hb⟩
  | method hf => exact ⟨_, .method hf⟩
  | inherited hf => exact ⟨_, .inherited hf⟩

theorem Within.anywhere {frames : List Frame} {n : Node} {q : Position}
    (h : Within ⟨frames, n⟩ q) (frames' : List Frame) :
    ∃ outer, Within ⟨frames', n⟩ ⟨outer, q.node⟩ := by
  induction h with
  | refl => exact ⟨frames', .refl⟩
  | tail _ hstep ih =>
      obtain ⟨outer, ih⟩ := ih
      obtain ⟨outer', hstep⟩ := hstep.anywhere outer
      exact ⟨outer', ih.tail hstep⟩

/-- A property of nodes holds of all inside a node, whatever is around it. -/
theorem Everywhere.anywhere {P : Node → Prop} {frames : List Frame} {n : Node}
    (h : Everywhere (fun q => P q.node) ⟨frames, n⟩) (frames' : List Frame) :
    Everywhere (fun q => P q.node) ⟨frames', n⟩ := by
  intro q hq
  obtain ⟨outer, hq'⟩ := hq.anywhere frames
  exact h ⟨outer, q.node⟩ hq'

end Treewalk
