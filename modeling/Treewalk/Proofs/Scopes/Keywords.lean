import Treewalk.Proofs.Scopes.Nesting

/-!
# Misplaced keywords

Whether a `return`, `break`, `continue`, `this` or `super` is misplaced depends on the functions,
classes and loops around it and on nothing else. Name resolution reports just the misplaced ones,
each once, in the order in which it comes to them.
-/
namespace Treewalk

/-- What a keyword can stand in. -/
inductive Enclosure
  | loop
  | function
  | lambda
  | method (isInitializer : Bool)
  | class (inherits : Bool)
deriving DecidableEq, Repr

namespace Enclosure

/-- Named functions, methods and lambdas. -/
def isFunction : Enclosure → Bool
  | .function | .lambda | .method _ => true
  | _ => false

def isClass : Enclosure → Bool
  | .class _ => true
  | _ => false

end Enclosure

/-- The keywords that are bound to a place, a `return` with whether it has a value. -/
inductive Keyword
  | return (hasValue : Bool)
  | break
  | continue
  | this
  | super
deriving DecidableEq, Repr

/-- What is wrong with a keyword that stands in these constructs, innermost first. -/
def Keyword.fault? (around : List Enclosure) : Keyword → Option StaticError
  | .return hasValue =>
      match around.find? Enclosure.isFunction with
      | none => some .returnOutsideFunction
      | some (.method true) => if hasValue then some .returnFromInitializer else none
      | some _ => none
  | .break =>
      if .loop ∈ around.takeWhile (!·.isFunction) then none else some .breakOutsideLoop
  | .continue =>
      if .loop ∈ around.takeWhile (!·.isFunction) then none else some .continueOutsideLoop
  | .this => if around.any Enclosure.isClass then none else some .thisOutsideClass
  | .super =>
      match around.find? Enclosure.isClass with
      | none => some .superOutsideClass
      | some (.class false) => some .superWithoutSuperclass
      | some _ => none

/-- A keyword in a tree. -/
structure KeywordUse where
  keyword : Keyword
  token : Token
  around : List Enclosure

/-- The report of a misplaced keyword. -/
def KeywordUse.report? (u : KeywordUse) : Option Diagnostic :=
  (u.keyword.fault? u.around).map (⟨.ofToken u.token, ·⟩)

/-- The errors that are about misplaced keywords. -/
def StaticError.isMisplacement : StaticError → Bool
  | .returnOutsideFunction | .returnFromInitializer | .breakOutsideLoop | .continueOutsideLoop
  | .thisOutsideClass | .superOutsideClass | .superWithoutSuperclass => true
  | _ => false

theorem Keyword.fault?_isMisplacement (k : Keyword) (around : List Enclosure) :
    ∀ e ∈ k.fault? around, e.isMisplacement = true := by
  intro e he
  unfold Keyword.fault? at he
  cases k <;> simp only at he <;> split at he <;> (try split at he) <;> cases he <;> rfl

/-- A method as what keywords in it stand in. -/
def FunctionDecl.asMethod (f : FunctionDecl) : Enclosure := .method (f.displayName == "init")

mutual

/-- The keywords in an expression, in the order in which they are come to: of an assignment to a
field, the value is first. -/
def Expr.keywords (around : List Enclosure) : Expr → List KeywordUse
  | .literal _ | .name _ => []
  | .grouping e | .assign _ e | .unary _ _ e | .get e _ => e.keywords around
  | .binary left _ _ right | .logical left _ _ right =>
      left.keywords around ++ right.keywords around
  | .call callee _ arguments => callee.keywords around ++ exprKeywords around arguments
  | .set object _ value => value.keywords around ++ object.keywords around
  | .this use => [⟨.this, use.name, around⟩]
  | .super use _ => [⟨.super, use.name, around⟩]
  | .lambda f => f.keywords (.lambda :: around)

def exprKeywords (around : List Enclosure) : List Expr → List KeywordUse
  | [] => []
  | e :: es => e.keywords around ++ exprKeywords around es

def exprKeywords? (around : List Enclosure) : Option Expr → List KeywordUse
  | none => []
  | some e => e.keywords around

/-- The keywords in a statement. -/
def Stmt.keywords (around : List Enclosure) : Stmt → List KeywordUse
  | .expression e | .print e => e.keywords around
  | .var _ _ initial => exprKeywords? around initial
  | .block body => stmtKeywords around body
  | .if condition thenBranch elseBranch =>
      condition.keywords around ++ (thenBranch.keywords around ++ stmtKeywords? around elseBranch)
  | .while condition body increment =>
      condition.keywords (.loop :: around) ++
        (body.keywords (.loop :: around) ++ exprKeywords? (.loop :: around) increment)
  | .break keyword => [⟨.break, keyword, around⟩]
  | .continue keyword => [⟨.continue, keyword, around⟩]
  | .return keyword value => ⟨.return value.isSome, keyword, around⟩ :: exprKeywords? around value
  | .function f => f.keywords (.function :: around)
  | .class _ superclass methods => methodKeywords (.class superclass.isSome :: around) methods
  | .importModule _ _ _ => []

def stmtKeywords (around : List Enclosure) : List Stmt → List KeywordUse
  | [] => []
  | s :: ss => s.keywords around ++ stmtKeywords around ss

def stmtKeywords? (around : List Enclosure) : Option Stmt → List KeywordUse
  | none => []
  | some s => s.keywords around

/-- The keywords in the body of a function. -/
def FunctionDecl.keywords (around : List Enclosure) : FunctionDecl → List KeywordUse
  | .mk _ _ body => stmtKeywords around body

def methodKeywords (around : List Enclosure) : List FunctionDecl → List KeywordUse
  | [] => []
  | f :: fs => f.keywords (f.asMethod :: around) ++ methodKeywords around fs

end

/-- The reports of the misplaced ones among keywords. -/
def misplacements (us : List KeywordUse) : List Diagnostic := us.filterMap KeywordUse.report?

@[simp] theorem misplacements_nil : misplacements [] = [] := rfl

@[simp] theorem misplacements_append (us vs : List KeywordUse) :
    misplacements (us ++ vs) = misplacements us ++ misplacements vs := List.filterMap_append

theorem misplacements_cons (u : KeywordUse) (us : List KeywordUse) :
    misplacements (u :: us) = u.report?.toList ++ misplacements us := by
  cases h : u.report? <;> simp [misplacements, h]

/-! ### What surrounds a keyword, as name resolution knows it -/

namespace Enclosure

/-- What a function is to name resolution. -/
def context? : Enclosure → Option FunctionContext
  | .function => some .function
  | .lambda => some .lambda
  | .method isInitializer => some (if isInitializer then .initializer else .method)
  | .loop | .class _ => none

theorem context?_isSome (e : Enclosure) : e.context?.isSome = e.isFunction := by
  cases e <;> rfl

theorem context?_of_isFunction {e : Enclosure} (h : e.isFunction = true) :
    ∃ context, e.context? = some context ∧ context ≠ .none ∧
      (context = .initializer ↔ e = .method true) := by
  cases e with
  | function | lambda => exact ⟨_, rfl, nofun, nofun, nofun⟩
  | method isInitializer =>
      cases isInitializer with
      | false => exact ⟨_, rfl, nofun, nofun, nofun⟩
      | true => exact ⟨_, rfl, nofun, fun _ => rfl, fun _ => rfl⟩
  | loop | «class» => cases h

end Enclosure

theorem Resolve.methodContext_eq (f : FunctionDecl) :
    f.asMethod.context? = some (methodContext f) := by
  unfold FunctionDecl.asMethod Enclosure.context? methodContext FunctionDecl.displayName
  cases f.name with
  | none => rfl
  | some t => simp only [beq_iff_eq]

/-- The flags of name resolution tell the functions, classes and loops around a node. -/
structure Scoping.Inside (around : List Enclosure) (s : Scoping) : Prop where
  function : s.function = ((around.find? Enclosure.isFunction).bind Enclosure.context?).getD .none
  classContext : s.classContext =
    match around.find? Enclosure.isClass with
    | some (.class true) => .derived
    | some _ => .root
    | none => .none
  inLoop : s.inLoop = decide (.loop ∈ around.takeWhile (!·.isFunction))

namespace Scoping.Inside
variable {around : List Enclosure} {s before : Scoping}

theorem steady (around : List Enclosure) : Scoping.Steady (Inside around) :=
  fun _ _ _ h => ⟨h.function, h.classContext, h.inLoop⟩

/-- The scopes and what else is known of names play no part. -/
theorem congr (h : s.Inside around) {t : Scoping} (hf : t.function = s.function)
    (hc : t.classContext = s.classContext) (hl : t.inLoop = s.inLoop) : t.Inside around :=
  ⟨hf.trans h.function, hc.trans h.classContext, hl.trans h.inLoop⟩

theorem function_none_iff (h : s.Inside around) :
    s.function = .none ↔ around.find? Enclosure.isFunction = none := by
  rw [h.function]
  cases hfind : around.find? Enclosure.isFunction with
  | none => simp
  | some e =>
      obtain ⟨context, hcontext, hne, -⟩ := Enclosure.context?_of_isFunction (List.find?_some hfind)
      simp [hcontext, hne]

theorem classContext_none_iff (h : s.Inside around) :
    s.classContext = .none ↔ around.any Enclosure.isClass = false := by
  rw [h.classContext]
  cases hfind : around.find? Enclosure.isClass with
  | none => simpa using hfind
  | some e =>
      have hany : around.any Enclosure.isClass = true :=
        List.any_eq_true.mpr ⟨e, List.mem_of_find?_eq_some hfind, List.find?_some hfind⟩
      rw [hany]
      rcases e with _ | _ | _ | _ | (_ | _) <;> simp

theorem function_initializer_iff (h : s.Inside around) :
    s.function = .initializer ↔ around.find? Enclosure.isFunction = some (.method true) := by
  rw [h.function]
  cases hfind : around.find? Enclosure.isFunction with
  | none => simp
  | some e =>
      obtain ⟨context, hcontext, -, hinitializer⟩ :=
        Enclosure.context?_of_isFunction (List.find?_some hfind)
      simp [hcontext, hinitializer]

theorem enterFunction (h : s.Inside around) {e : Enclosure} {context : FunctionContext}
    (he : e.context? = some context) :
    ({ s with function := context, inLoop := false } : Scoping).Inside (e :: around) := by
  have hfunction : e.isFunction = true := by rw [← e.context?_isSome, he]; rfl
  have hclass : e.isClass = false := by cases e <;> first | rfl | cases he
  constructor
  case function => simp [List.find?_cons_of_pos hfunction, he]
  case classContext =>
    rw [List.find?_cons_of_neg (by simp [hclass])]
    exact h.classContext
  case inLoop => simp [hfunction]

theorem leaveFunction (hbefore : before.Inside around) {e : Enclosure} (he : e.isFunction = true)
    (h : s.Inside (e :: around)) :
    ({ s with function := before.function, inLoop := before.inLoop } : Scoping).Inside around := by
  have hclass : e.isClass = false := by cases e <;> first | rfl | cases he
  refine ⟨hbefore.function, ?_, hbefore.inLoop⟩
  have := h.classContext
  rwa [List.find?_cons_of_neg (by simp [hclass])] at this

theorem enterLoop (h : s.Inside around) :
    ({ s with inLoop := true } : Scoping).Inside (.loop :: around) := by
  constructor
  case function => exact h.function
  case classContext => exact h.classContext
  case inLoop => simp [Enclosure.isFunction]

theorem leaveLoop (hbefore : before.Inside around) (h : s.Inside (.loop :: around)) :
    ({ s with inLoop := before.inLoop } : Scoping).Inside around :=
  ⟨h.function, h.classContext, hbefore.inLoop⟩

theorem loop_class (inherits : Bool) :
    .loop ∈ (.class inherits :: around).takeWhile (!·.isFunction) ↔
      .loop ∈ around.takeWhile (!·.isFunction) := by
  change .loop ∈ .class inherits :: around.takeWhile (!·.isFunction) ↔ _
  simp

theorem enterClass (h : s.Inside around) (inherits : Bool) :
    ({ s with classContext := if inherits then .derived else .root } : Scoping).Inside
      (.class inherits :: around) := by
  constructor
  case function => exact h.function
  case classContext => cases inherits <;> rfl
  case inLoop => exact h.inLoop.trans (decide_eq_decide.mpr (loop_class inherits).symm)

theorem leaveClass (hbefore : before.Inside around) {inherits : Bool}
    (h : s.Inside (.class inherits :: around)) :
    ({ s with classContext := before.classContext } : Scoping).Inside around := by
  exact ⟨h.function, hbefore.classContext,
    h.inLoop.trans (decide_eq_decide.mpr (loop_class inherits))⟩

theorem declare (h : s.Inside around) (token : Token) (name : String) :
    (s.declare token name).Inside around := by
  unfold Scoping.declare
  split <;> split <;> exact h.congr rfl rfl rfl

theorem define (h : s.Inside around) (name : String) : (s.define name).Inside around := by
  unfold Scoping.define
  split <;> exact h.congr rfl rfl rfl

theorem setMutability (h : s.Inside around) (name : String) (m : Mutability) :
    (s.setMutability name m).Inside around := by
  unfold Scoping.setMutability
  dsimp only
  split <;> exact h.congr rfl rfl rfl

end Scoping.Inside

namespace Resolve
open Scoping (Inside)
variable {α β : Type} {around : List Enclosure} {us vs : List KeywordUse}

/-- Where these constructs are around, just the misplaced ones among these keywords are reported. -/
abbrev Misplaces (around : List Enclosure) (us : List KeywordUse) (p : Resolve α) : Prop :=
  Tells StaticError.isMisplacement (Inside around) (Inside around) (misplacements us) p

namespace Misplaces

theorem pure {a : α} : Misplaces around [] (Pure.pure a) := Tells.pure

theorem bind {p : Resolve β} {f : β → Resolve α} (hp : Misplaces around us p)
    (hf : ∀ b, Misplaces around vs (f b)) : Misplaces around (us ++ vs) (p >>= f) := by
  unfold Misplaces
  rw [misplacements_append]
  exact Tells.bind hp hf

theorem after {p : Resolve β} {f : β → Resolve α} (hp : Misplaces around [] p)
    (hf : ∀ b, Misplaces around us (f b)) : Misplaces around us (p >>= f) := Tells.after hp hf

theorem before {p : Resolve β} {f : β → Resolve α} (hp : Misplaces around us p)
    (hf : ∀ b, Misplaces around [] (f b)) : Misplaces around us (p >>= f) := by
  have h := bind hp hf
  rwa [List.append_nil] at h

/-- Something that tells of no keyword. -/
theorem other {token : Token} {error : StaticError} (h : error.isMisplacement = false) :
    Misplaces around [] (Resolve.report token error) := Tells.other (Inside.steady around) h

theorem declare (token : Token) (name : String) :
    Misplaces around [] (modify fun s => s.declare token name) :=
  Tells.modified fun s hs => ⟨hs.declare token name, s.reported_declare rfl rfl token name⟩

theorem declared (token : Token) (name : String) : Misplaces around [] (Resolve.bind token name) :=
  Tells.modified fun s hs => ⟨(hs.declare token name).define name,
    ((s.declare token name).reported_define name).trans (s.reported_declare rfl rfl token name)⟩

theorem completed (name : String) (m : Mutability) :
    Misplaces around [] (modify fun s => (s.define name).setMutability name m) :=
  Tells.modified fun s hs => ⟨(hs.define name).setMutability name m,
    ((s.define name).reported_setMutability name m).trans (s.reported_define name)⟩

theorem lookUp (form : UseForm) (use : NameUse) : Misplaces around [] (Resolve.lookUp form use) :=
  Tells.lookUp (Inside.steady around) form use

theorem mapM {f : β → Resolve α} {uses : β → List KeywordUse}
    (h : ∀ b, Misplaces around (uses b) (f b)) (bs : List β) :
    Misplaces around (bs.flatMap uses) (bs.mapM f) := by
  induction bs with
  | nil => exact Tells.mapM_nil
  | cons b bs ih =>
      unfold Misplaces
      rw [List.flatMap_cons, misplacements_append]
      exact Tells.mapM_cons (h b) ih

theorem forM {f : β → Resolve Unit} (h : ∀ b, Misplaces around [] (f b)) (bs : List β) :
    Misplaces around [] (bs.forM f) := by
  induction bs with
  | nil => exact pure
  | cons b bs ih => exact after (h b) fun _ => ih

theorem inScope {names : List String} {p : Resolve α} (h : Misplaces around us p) :
    Misplaces around us (Resolve.inScope names p) :=
  Tells.inScope h (fun _ hs => hs.congr rfl rfl rfl) fun _ hs => hs.congr rfl rfl rfl

theorem inFunction {e : Enclosure} {context : FunctionContext} {p : Resolve α}
    (he : e.context? = some context) (h : Misplaces (e :: around) us p) :
    Misplaces around us (Resolve.inFunction context p) := by
  have hfunction : e.isFunction = true := by rw [← e.context?_isSome, he]; rfl
  exact Tells.within h (fun _ hs => hs.enterFunction he)
    (fun _ _ hbefore hs => .leaveFunction hbefore hfunction hs) (fun _ => rfl) fun _ _ => rfl

theorem inLoop {p : Resolve α} (h : Misplaces (.loop :: around) us p) :
    Misplaces around us (Resolve.inLoop p) :=
  Tells.within h (fun _ hs => hs.enterLoop) (fun _ _ hbefore hs => .leaveLoop hbefore hs)
    (fun _ => rfl) fun _ _ => rfl

theorem inClass (inherits : Bool) {p : Resolve α} (h : Misplaces (.class inherits :: around) us p) :
    Misplaces around us (Resolve.inClass (if inherits then .derived else .root) p) :=
  Tells.within h (fun _ hs => hs.enterClass inherits) (fun _ _ hbefore hs => .leaveClass hbefore hs)
    (fun _ => rfl) fun _ _ => rfl

theorem initializing (name : String) {p : Resolve α} (h : Misplaces around us p) :
    Misplaces around us (Resolve.initializing name p) := by
  rw [Visiting.initializing_eq]
  refine Tells.within h (fun _ hs => ?_) (fun _ _ _ hs => hs.congr rfl rfl rfl) (fun _ => ?_)
    fun _ _ => rfl
  · split <;> exact hs.congr rfl rfl rfl
  · split <;> rfl

theorem optional {f : β → Resolve α} {uses : β → List KeywordUse}
    (h : ∀ b, Misplaces around (uses b) (f b)) (o : Option β) :
    Misplaces around (o.toList.flatMap uses) (o.mapM f) := by
  cases o with
  | none => exact pure
  | some b =>
      rw [Option.toList_some, List.flatMap_singleton]
      exact Tells.ending (h b)

/-- A keyword is checked. -/
theorem check {k : Keyword} {c : Scoping → Prop} [DecidablePred c] {token : Token}
    {error : StaticError}
    (h : ∀ s, Inside around s → k.fault? around = if c s then some error else none) :
    Misplaces around [⟨k, token, around⟩]
      (get >>= fun s => if c s then Resolve.report token error else Pure.pure ()) := by
  have hd : misplacements [⟨k, token, around⟩] =
      (k.fault? around).toList.map (⟨.ofToken token, ·⟩) := by
    rw [misplacements_cons, misplacements_nil, List.append_nil]
    unfold KeywordUse.report?
    cases k.fault? around <;> rfl
  unfold Misplaces
  rw [hd]
  exact Tells.check (Inside.steady around) (k.fault?_isMisplacement around) h

/-- A read tells of names only. -/
theorem read (use : NameUse) : Misplaces around [] (Resolve.read use) := by
  have hstay : ∀ {s : Scoping} {q : Resolve NameUse}, Inside around s → Misplaces around [] q →
      Tells StaticError.isMisplacement (fun t => t = s) (Inside around) [] q :=
    fun hs hq => hq.mono fun t ht => ht ▸ hs
  refine Tells.getting fun s hs => ?_
  split
  · next inner outer _ =>
      split
      · refine hstay hs ?_
        unfold readOuter
        dsimp only
        split
        · exact after (Tells.modified fun s hs => ⟨Inside.steady around _ _ _ hs, rfl⟩)
            fun _ => pure
        · refine Tells.getting fun s hs => hstay hs ?_
          split
          · refine after (Tells.modified fun s hs => ⟨Inside.steady around _ _ _ hs, ?_⟩)
              fun _ => pure
            unfold Scoping.reported
            rw [Array.toList_push, errorsOf_append]
            exact List.append_nil _
          · exact after (other rfl) fun _ => pure
      · exact hstay hs (lookUp .read use)
  · split
    · exact hstay hs (after (other rfl) fun _ => pure)
    · exact hstay hs pure

theorem checkFieldWrite (object : Expr) (name : Token) :
    Misplaces around [] (Resolve.checkFieldWrite object name) := by
  unfold Resolve.checkFieldWrite
  split
  · exact Tells.checkOther (c := fun s => s.isConstant _ = true) (Inside.steady around) rfl
  · exact pure

theorem checkingOther {c : Scoping → Prop} [DecidablePred c] {token : Token} {error : StaticError}
    {p : Resolve α} (h : error.isMisplacement = false) (hp : Misplaces around us p) :
    Misplaces around us
      (get >>= fun s => if c s then Resolve.report token error >>= fun _ => p else p) :=
  Tells.checking (Tells.checkOther (Inside.steady around) h) hp

/-- A `break` or `continue` is checked. -/
theorem checkLoop {k : Keyword} {token : Token} {error : StaticError} {a : α}
    (h : k.fault? around =
      if .loop ∈ around.takeWhile (!·.isFunction) then none else some error) :
    Misplaces around [⟨k, token, around⟩] (do
      if !(← get).inLoop then Resolve.report token error
      return a) := by
  have hcheck : Misplaces around [⟨k, token, around⟩] (get >>= fun s =>
      if (!s.inLoop) = true then Resolve.report token error else Pure.pure ()) :=
    check (c := fun s => (!s.inLoop) = true) fun s hs => by
      rw [h, hs.inLoop]
      by_cases hloop : .loop ∈ around.takeWhile (!·.isFunction) <;> simp [hloop]
  have hboth := Tells.checking hcheck (Tells.pure (a := a))
  rwa [List.append_nil] at hboth

/-- A `this` is looked up only in a class. -/
theorem checkThis (use : NameUse) : Misplaces around [⟨.this, use.name, around⟩] (do
    if (← get).classContext = .none then
      Resolve.report use.name .thisOutsideClass
      return Expr.this use
    else return Expr.this (← Resolve.lookUp .this use)) := by
  refine Tells.getting fun s hs => ?_
  have hclass := hs.classContext_none_iff
  by_cases hnone : s.classContext = .none
  · have hfault : Keyword.this.fault? around = some .thisOutsideClass := by
      simp only [Keyword.fault?, hclass.mp hnone, Bool.false_eq_true, if_false]
    have hreport : Tells StaticError.isMisplacement (Inside around) (Inside around)
        [⟨.ofToken use.name, .thisOutsideClass⟩] (Resolve.report use.name .thisOutsideClass) :=
      Tells.report (Inside.steady around) rfl
    simp only [hnone, if_true, misplacements, KeywordUse.report?, List.filterMap_cons, hfault,
      Option.map_some, List.filterMap_nil]
    exact hreport.ending.mono fun t ht => ht ▸ hs
  · have hfault : Keyword.this.fault? around = none := by
      have hany := (not_congr hclass).mp hnone
      simp only [Keyword.fault?, Bool.not_eq_false _ ▸ hany, if_true]
    simp only [hnone, if_false, misplacements, KeywordUse.report?, List.filterMap_cons, hfault,
      Option.map_none, List.filterMap_nil]
    exact (Tells.ending (lookUp .this use)).mono fun t ht => ht ▸ hs

/-- A `super` is checked. -/
theorem checkSuper (token : Token) :
    Misplaces around [⟨.super, token, around⟩] (Resolve.checkSuper token) := by
  refine Tells.getting fun s hs => ?_
  have hclass := hs.classContext
  have hstay : ∀ {q : Resolve Unit}, Misplaces around [⟨.super, token, around⟩] q →
      Tells StaticError.isMisplacement (fun t => t = s) (Inside around)
        (misplacements [⟨.super, token, around⟩]) q := fun hq => hq.mono fun t ht => ht ▸ hs
  have hreport : ∀ {error : StaticError}, Keyword.super.fault? around = some error →
      Misplaces around [⟨.super, token, around⟩] (Resolve.report token error) := by
    intro error herror
    have hkind := Keyword.super.fault?_isMisplacement around error herror
    have h : Tells StaticError.isMisplacement (Inside around) (Inside around)
        [⟨.ofToken token, error⟩] (Resolve.report token error) :=
      Tells.report (Inside.steady around) hkind
    unfold Misplaces misplacements KeywordUse.report?
    simpa only [List.filterMap_cons, herror, Option.map_some, List.filterMap_nil] using h
  cases hfind : around.find? Enclosure.isClass with
  | none =>
      rw [hfind] at hclass
      simp only [hclass]
      exact hstay (hreport (by simp only [Keyword.fault?, hfind]))
  | some e =>
      have he : e.isClass = true := List.find?_some hfind
      rw [hfind] at hclass
      cases e with
      | «class» inherits =>
          cases inherits with
          | false =>
              simp only [hclass]
              exact hstay (hreport (by simp only [Keyword.fault?, hfind]))
          | true =>
              simp only [hclass]
              refine hstay ?_
              unfold Misplaces misplacements KeywordUse.report?
              simp only [List.filterMap_cons, Keyword.fault?, hfind, Option.map_none,
                List.filterMap_nil]
              exact Tells.pure
      | _ => cases he

/-- A `return` is checked. -/
theorem checkReturn (token : Token) {value : Option Expr} {p : Resolve α}
    (hp : Misplaces around us p) :
    Misplaces around (⟨.return value.isSome, token, around⟩ :: us) (do
      Resolve.checkReturn token
      if value.isSome ∧ (← get).function = .initializer then
        Resolve.report token .returnFromInitializer
      p) := by
  let first : Option StaticError :=
    if around.find? Enclosure.isFunction = none then some .returnOutsideFunction else none
  let second : Option StaticError :=
    if value.isSome ∧ around.find? Enclosure.isFunction = some (.method true) then
      some .returnFromInitializer else none
  have hfirst : Tells StaticError.isMisplacement (Inside around) (Inside around)
      (first.toList.map (⟨.ofToken token, ·⟩)) (Resolve.checkReturn token) := by
    refine Tells.check (c := fun s => s.function = .none) (Inside.steady around) ?_ fun s hs => ?_
    · intro e he
      obtain ⟨-, he⟩ := Option.ite_none_right_eq_some.mp he
      cases he
      rfl
    · simp only [hs.function_none_iff, first]
  have hsecond : Tells StaticError.isMisplacement (Inside around) (Inside around)
      (second.toList.map (⟨.ofToken token, ·⟩)) (get >>= fun s =>
        if value.isSome = true ∧ s.function = .initializer then
          Resolve.report token .returnFromInitializer else Pure.pure ()) := by
    refine Tells.check (c := fun s => value.isSome = true ∧ s.function = .initializer)
      (Inside.steady around) ?_ fun s hs => ?_
    · intro e he
      obtain ⟨-, he⟩ := Option.ite_none_right_eq_some.mp he
      cases he
      rfl
    · simp only [hs.function_initializer_iff, second]
  have hboth : misplacements (⟨.return value.isSome, token, around⟩ :: us) =
      first.toList.map (⟨.ofToken token, ·⟩) ++
        (second.toList.map (⟨.ofToken token, ·⟩) ++ misplacements us) := by
    rw [misplacements_cons, ← List.append_assoc]
    congr 1
    unfold KeywordUse.report? Keyword.fault?
    simp only [first, second]
    cases around.find? Enclosure.isFunction with
    | none => simp
    | some e =>
        cases e with
        | method isInitializer => cases isInitializer <;> cases value <;> simp
        | _ => simp
  unfold Misplaces
  rw [hboth]
  exact hfirst.bind fun _ => Tells.checking
    (c := fun s => value.isSome = true ∧ s.function = .initializer) hsecond hp

end Misplaces

/-- At a nesting level, the misplaced keywords of a tree are reported. -/
structure LevelMisplaces (levels : Nat) : Prop where
  expression : ∀ around e, Misplaces around (e.keywords around) (expression levels e)
  statement : ∀ around st, Misplaces around (st.keywords around) (statement levels st)
  method : ∀ around f, Misplaces around (f.keywords (f.asMethod :: around)) (method levels f)
  functionBody : ∀ around (e : Enclosure) context f, e.context? = some context →
    Misplaces around (f.keywords (e :: around)) (functionBody levels context f)

theorem exprKeywords_eq (around : List Enclosure) (es : List Expr) :
    exprKeywords around es = es.flatMap (Expr.keywords around) := by
  induction es with
  | nil => rfl
  | cons e es ih => rw [exprKeywords, ih, List.flatMap_cons]

theorem exprKeywords?_eq (around : List Enclosure) (e : Option Expr) :
    exprKeywords? around e = e.toList.flatMap (Expr.keywords around) := by
  cases e with
  | none => rfl
  | some e => exact (List.flatMap_singleton _ _).symm

theorem stmtKeywords_eq (around : List Enclosure) (ss : List Stmt) :
    stmtKeywords around ss = ss.flatMap (Stmt.keywords around) := by
  induction ss with
  | nil => rfl
  | cons s ss ih => rw [stmtKeywords, ih, List.flatMap_cons]

theorem stmtKeywords?_eq (around : List Enclosure) (s : Option Stmt) :
    stmtKeywords? around s = s.toList.flatMap (Stmt.keywords around) := by
  cases s with
  | none => rfl
  | some s => exact (List.flatMap_singleton _ _).symm

theorem methodKeywords_eq (around : List Enclosure) (fs : List FunctionDecl) :
    methodKeywords around fs = fs.flatMap fun f => f.keywords (f.asMethod :: around) := by
  induction fs with
  | nil => rfl
  | cons f fs ih => rw [methodKeywords, ih, List.flatMap_cons]

namespace LevelMisplaces
variable {levels : Nat}

theorem expression_succ (ih : LevelMisplaces levels) (around : List Enclosure) (e : Expr) :
    Misplaces around (e.keywords around) (Resolve.expression (levels + 1) e) := by
  unfold Resolve.expression Expr.keywords
  cases e with
  | literal value => exact .pure
  | grouping inner => exact (ih.expression around inner).ending
  | name use => exact (Misplaces.read use).ending
  | assign use value =>
      exact .before (ih.expression around value) fun _ =>
        .checkingOther (c := fun s => s.isConstant use.name.lexeme = true) rfl
          (Misplaces.lookUp .assign use).ending
  | unary op token operand => exact (ih.expression around operand).ending
  | binary left op token right =>
      exact .bind (ih.expression around left) fun _ => (ih.expression around right).ending
  | logical left op token right =>
      exact .bind (ih.expression around left) fun _ => (ih.expression around right).ending
  | call callee paren arguments =>
      have harguments := Misplaces.mapM (ih.expression around) arguments
      rw [← exprKeywords_eq] at harguments
      exact .bind (ih.expression around callee) fun _ => harguments.ending
  | get object name => exact (ih.expression around object).ending
  | set object name value =>
      exact .bind (ih.expression around value) fun _ =>
        .after (.checkFieldWrite object name) fun _ => (ih.expression around object).ending
  | this use => exact .checkThis use
  | super use method =>
      exact .before (.checkSuper use.name) fun _ => (Misplaces.lookUp .super use).ending
  | lambda function => exact (ih.functionBody around .lambda .lambda function rfl).ending

theorem statement_succ (ih : LevelMisplaces levels) (around : List Enclosure) (st : Stmt) :
    Misplaces around (st.keywords around) (Resolve.statement (levels + 1) st) := by
  unfold Resolve.statement Stmt.keywords
  cases st with
  | expression e => exact (ih.expression around e).ending
  | print e => exact (ih.expression around e).ending
  | var mutability name initial =>
      have hinitial := Misplaces.optional
        (fun e => Misplaces.initializing name.lexeme (ih.expression around e)) initial
      rw [← exprKeywords?_eq] at hinitial
      exact .after (.declare _ _) fun _ => .before hinitial fun _ =>
        (Misplaces.completed name.lexeme mutability).ending
  | block body =>
      have hbody := Misplaces.mapM (ih.statement around) body
      rw [← stmtKeywords_eq] at hbody
      exact hbody.inScope.ending
  | «if» condition thenBranch elseBranch =>
      have helse := Misplaces.optional (ih.statement around) elseBranch
      rw [← stmtKeywords?_eq] at helse
      exact .bind (ih.expression around condition) fun _ =>
        .bind (ih.statement around thenBranch) fun _ => helse.ending
  | «while» condition body increment =>
      have hincrement := Misplaces.optional (ih.expression (.loop :: around)) increment
      rw [← exprKeywords?_eq] at hincrement
      exact Misplaces.inLoop (.bind (ih.expression _ condition) fun _ =>
        .bind (ih.statement _ body) fun _ => hincrement.ending)
  | «break» keyword => exact .checkLoop rfl
  | «continue» keyword => exact .checkLoop rfl
  | «return» keyword value =>
      have hvalue := Misplaces.optional (ih.expression around) value
      rw [← exprKeywords?_eq] at hvalue
      exact .checkReturn keyword hvalue.ending
  | function f =>
      have hbody := (ih.functionBody around .function .function f rfl).ending (f := Stmt.function)
      cases hname : f.name with
      | none => simpa only [hname] using hbody
      | some name =>
          simp only [hname]
          exact .after (.declared name name.lexeme) fun _ => hbody
  | «class» name superclass methods =>
      have hmethods := fun inherits =>
        Misplaces.mapM (ih.method (.class inherits :: around)) methods
      cases superclass with
      | none =>
          have h := hmethods false
          rw [← methodKeywords_eq] at h
          exact Misplaces.inClass false (.after (.declared name name.lexeme) fun _ =>
            h.inScope.ending)
      | some use =>
          have h := hmethods true
          rw [← methodKeywords_eq] at h
          exact Misplaces.inClass true (.after (.declared name name.lexeme) fun _ =>
            .checkingOther (c := fun _ => use.name.lexeme = name.lexeme) rfl
              (.after (.read use) fun _ => h.inScope.inScope.ending))
  | importModule keyword name as =>
      cases hname : importNameError? (importedModule name) as.isSome with
      | some error =>
          simp only [hname]
          have hother : Misplaces around [] (Resolve.report name (.importName error)) := .other rfl
          exact hother.ending
      | none =>
          simp only [hname]
          exact (Misplaces.declared _ _).ending

theorem functionBody_succ (ih : LevelMisplaces levels) (around : List Enclosure) {e : Enclosure}
    {context : FunctionContext} (f : FunctionDecl) (he : e.context? = some context) :
    Misplaces around (f.keywords (e :: around))
      (Resolve.functionBody (levels + 1) context f) := by
  obtain ⟨name, parameters, body⟩ := f
  have hbody := Misplaces.mapM (ih.statement (e :: around)) body
  rw [← stmtKeywords_eq] at hbody
  exact .inFunction he (.inScope (.after (.forM (fun p => .declared p p.lexeme) parameters)
    fun _ => hbody.ending))

end LevelMisplaces

theorem misplaces (levels : Nat) : LevelMisplaces levels := by
  -- What encloses a node is an index: the brackets of name resolution restore their state to it.
  induction levels with
  | zero =>
      exact
        { expression := fun _ _ => Tells.throw
          statement := fun _ _ => Tells.throw
          method := fun _ _ => Tells.throw
          functionBody := fun _ _ _ _ _ => Tells.throw }
  | succ levels ih =>
      exact
        { expression := ih.expression_succ
          statement := ih.statement_succ
          method := fun around f =>
            ih.functionBody around f.asMethod (methodContext f) f (methodContext_eq f)
          functionBody := fun around _ _ f he => ih.functionBody_succ around f he }

end Resolve

namespace UnitText
variable {t : UnitText}

/-- In a unit that was read without errors, whatever else is wrong with it, each keyword is reported
that its surroundings make a misplaced one, once, and none besides. Where nesting goes beyond the
limit this is the last thing reported, and only the misplaced keywords before it are. -/
theorem misplaced_keywords (h : t.Readable) :
    errorsOf StaticError.isMisplacement t.notices =
        misplacements (stmtKeywords [] t.parsed.statements) ∨
      t.CutShort ∧ errorsOf StaticError.isMisplacement t.notices <+:
        misplacements (stmtKeywords [] t.parsed.statements) := by
  have hstart : t.start.Inside [] := ⟨rfl, rfl, rfl⟩
  have hall := Resolve.Misplaces.mapM ((Resolve.misplaces (t.levels / 2)).statement [])
    t.parsed.statements
  rw [← Resolve.stmtKeywords_eq] at hall
  exact errorsOf_notices h rfl (hall.mono fun s hs => hs ▸ hstart)

/-- Four misplaced keywords in one unit, and three that are in place. -/
theorem misplaced_keywords_mixed :
    let t : UnitText :=
      { levels := 100, file := "<lox>",
        source := "class A \x7b init() \x7b while (this) \x7b return 1; continue; \x7d break; return super.m; \x7d \x7d return;" }
    t.Readable ∧ ¬t.CutShort ∧
      errorsOf StaticError.isMisplacement t.notices = misplacements (stmtKeywords [] t.parsed.statements) ∧
      errorsOf StaticError.isMisplacement t.notices =
        [⟨.token "return" 1, .returnFromInitializer⟩, ⟨.token "break" 1, .breakOutsideLoop⟩,
          ⟨.token "return" 1, .returnFromInitializer⟩, ⟨.token "super" 1, .superWithoutSuperclass⟩,
          ⟨.token "return" 1, .returnOutsideFunction⟩] := by
  intro t
  have hread : t.Readable := by
    change (scan t.source).faults ++ t.parsed.reports = []
    decide +kernel
  have hlast : t.notices.getLast? =
      some (.error ⟨.token "return" 1, .returnOutsideFunction⟩) := by decide +kernel
  have hnot : ¬t.CutShort := by
    rintro ⟨place, hplace⟩
    rw [hlast] at hplace
    cases hplace
  exact ⟨hread, hnot, (misplaced_keywords hread).resolve_right fun h => hnot h.1, by decide +kernel⟩

theorem keywords_negatedNil (around : List Enclosure) (n : Nat) :
    (Expr.negatedNil n).keywords around = [] := by
  induction n with
  | zero => rfl
  | succ n ih => exact ih

/-- Not every misplaced keyword is reported: where name resolution stops because nesting goes beyond
the limit, a `break` further on is not. -/
theorem late_break_unreported :
    ¬∀ t : UnitText, t.levels = nestingLimit → t.Readable →
      errorsOf StaticError.isMisplacement t.notices =
        misplacements (stmtKeywords [] t.parsed.statements) := by
  intro hall
  let t : UnitText := { levels := nestingLimit, file := "<lox>", source := lateBreak 15000 }
  obtain ⟨hread, hstatements, hnotices⟩ := lateBreak_notices (t := t) rfl (by decide) (by decide)
  have h := hall t rfl hread
  rw [hnotices, hstatements, stmtKeywords, Stmt.keywords, keywords_negatedNil] at h
  revert h
  decide

end UnitText
end Treewalk
