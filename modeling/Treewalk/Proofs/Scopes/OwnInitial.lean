import Treewalk.Proofs.Scopes.Housing
import Treewalk.Proofs.Scopes.Lexical
import Treewalk.Proofs.Scopes.OwnReads
import Treewalk.Proofs.Scopes.Reports

/-!
# Own initial values in name resolution

Name resolution knows of a node what is declared around it: the names in its open scopes, with the
one that is in the making, and the globals. Functions in an initial value are resolved in between
and leave this as it was, but for what they take off the globals that are being initialized. So the
reads that are reported are those for which there is no other variable.
-/
namespace Treewalk

/-- A scope of name resolution has these names. -/
structure StaticScope.Shows (o : OpenScope) (scope : StaticScope) : Prop where
  names : ∀ x, scope.names.contains x = true ↔ x ∈ o.names
  making : ∀ x, scope.names.find? x = some false ↔ o.making = some x

namespace StaticScope.Shows
variable {o : OpenScope} {scope : StaticScope}

theorem empty : StaticScope.Shows {} {} := by
  constructor <;> simp [Bindings.contains, Bindings.find?, Bindings.lookup]

/-- The declaration of a name begins. -/
theorem begun (h : StaticScope.Shows o scope) (hnone : o.making = none) (name : String) :
    StaticScope.Shows { names := o.names ++ [name], making := some name }
      { scope with names := scope.names.insert name false } := by
  constructor
  case names =>
    intro x
    rw [Bindings.contains_insert, Bool.or_eq_true, decide_eq_true_iff, h.names x, List.mem_append,
      List.mem_singleton, or_comm, eq_comm]
  case making =>
    intro x
    rw [Bindings.find?_insert]
    by_cases hx : name = x
    · simp [hx]
    · simp [hx, h.making x, hnone]

/-- The declaration of a name is complete. -/
theorem completed (h : StaticScope.Shows o scope) {name : String}
    (hmaking : ∀ x, o.making = some x → x = name) {names : List String}
    (hnames : ∀ x, x ∈ names ↔ x ∈ o.names ∨ x = name) :
    StaticScope.Shows { names := names } { scope with names := scope.names.insert name true } := by
  constructor
  case names =>
    intro x
    rw [Bindings.contains_insert, Bool.or_eq_true, decide_eq_true_iff, h.names x, hnames x, or_comm,
      eq_comm]
  case making =>
    intro x
    rw [Bindings.find?_insert]
    by_cases hx : name = x
    · simp [hx]
    · have hne : o.making ≠ some x := fun hm => hx (hmaking x hm).symm
      simp [hx, h.making x, hne]

/-- Only what is in a scope matters. -/
theorem congr (h : StaticScope.Shows o scope) {o' : OpenScope}
    (hnames : ∀ x, x ∈ o'.names ↔ x ∈ o.names) (hmaking : o'.making = o.making)
    {constants : List String} : StaticScope.Shows o' { scope with constants := constants } :=
  ⟨fun x => (h.names x).trans (hnames x).symm, fun x => hmaking ▸ h.making x⟩

end StaticScope.Shows

/-- Outside all scopes a declaration does not begin before it is complete. -/
theorem Scoping.declare_global {s : Scoping} (hs : s.scopes = []) (token : Token) (name : String) :
    ∃ notices, s.declare token name = { s with notices := notices } := by
  obtain ⟨scopes, globals, globalConstants, initializing, context, classContext, inLoop,
    resolutions, notices⟩ := s
  cases hs
  unfold declare
  dsimp only
  split <;> exact ⟨_, rfl⟩

theorem Scoping.declare_local {s : Scoping} {inner : StaticScope} {outer : List StaticScope}
    (hs : s.scopes = inner :: outer) (token : Token) (name : String) :
    ∃ notices, s.declare token name =
      { s with
        scopes := { inner with names := inner.names.insert name false } :: outer
        notices := notices } := by
  unfold declare
  rw [hs]
  dsimp only
  split
  · exact ⟨_, rfl⟩
  · exact ⟨_, rfl⟩

theorem Scoping.define_global {s : Scoping} (hs : s.scopes = []) (name : String) :
    s.define name = { s with globals := s.globals.insert name } := by
  unfold define
  rw [hs]

/-- Name resolution knows what is declared around a node. -/
structure Scoping.Shows (a : Around) (s : Scoping) : Prop where
  scopes : List.Forall₂ StaticScope.Shows a.scopes s.scopes
  globals : ∀ x, x ∈ s.globals ↔ x ∈ a.globals
  initializing : ∀ x, x ∈ s.initializing ↔ a.making = some x ∧ x ∉ a.made

namespace Scoping.Shows
variable {a : Around} {s : Scoping} {name : String}

theorem steady (a : Around) : Scoping.Steady (Shows a) :=
  fun _ _ _ h => ⟨h.scopes, h.globals, h.initializing⟩

theorem congr (h : s.Shows a) {t : Scoping} (hs : t.scopes = s.scopes) (hg : t.globals = s.globals)
    (hi : t.initializing = s.initializing) : t.Shows a :=
  ⟨hs ▸ h.scopes, hg ▸ h.globals, hi ▸ h.initializing⟩

theorem scopes_nil (h : s.Shows a) : a.scopes = [] ↔ s.scopes = [] := by
  rw [← List.length_eq_zero_iff, ← List.length_eq_zero_iff, h.scopes.length_eq]

theorem defineGlobal (h : s.Shows a) (hs : s.scopes = []) (name : String) :
    (s.define name).Shows (a.declaring [name]) := by
  rw [Scoping.define_global hs, Around.declaring_global (h.scopes_nil.mpr hs)]
  refine ⟨h.scopes, fun x => ?_, h.initializing⟩
  rw [List.mem_insert_iff, h.globals x, List.mem_append, List.mem_singleton, or_comm]

/-- A name in the innermost scope, which is the only one that may be in the making there. -/
theorem defineLocal {o : OpenScope} {outer : List OpenScope} (h : s.Shows a)
    (ha : a.scopes = o :: outer) (hmaking : ∀ x, o.making = some x → x = name) (names : List String)
    (hnames : ∀ x, x ∈ names ↔ x ∈ o.names ∨ x = name) :
    (s.define name).Shows { a with scopes := { names := names } :: outer } := by
  have hscopes := h.scopes
  rw [ha] at hscopes
  cases hs : s.scopes with
  | nil =>
      rw [hs] at hscopes
      cases hscopes
  | cons inner rest =>
      rw [hs] at hscopes
      obtain ⟨hinner, houter⟩ := List.forall₂_cons.mp hscopes
      unfold Scoping.define
      rw [hs]
      exact ⟨.cons (hinner.completed hmaking hnames) houter, h.globals, h.initializing⟩

theorem setMutability (h : s.Shows a) (name : String) (m : Mutability) :
    (s.setMutability name m).Shows a := by
  unfold Scoping.setMutability
  dsimp only
  cases hs : s.scopes with
  | nil => exact h.congr hs.symm rfl rfl
  | cons inner outer =>
      have hscopes := h.scopes
      rw [hs] at hscopes
      refine ⟨?_, h.globals, h.initializing⟩
      generalize a.scopes = os at hscopes
      cases hscopes with
      | cons hinner houter => exact .cons (hinner.congr (fun _ => Iff.rfl) rfl) houter

/-- A name is declared, and it is not complete. -/
theorem declareLocal {o : OpenScope} {outer : List OpenScope} (h : s.Shows a)
    (ha : a.scopes = o :: outer) (hmaking : o.making = none) (token : Token) (name : String) :
    (s.declare token name).Shows (a.beginning name) := by
  have hscopes := h.scopes
  rw [ha] at hscopes
  cases hs : s.scopes with
  | nil =>
      rw [hs] at hscopes
      cases hscopes
  | cons inner rest =>
      rw [hs] at hscopes
      obtain ⟨hinner, houter⟩ := List.forall₂_cons.mp hscopes
      obtain ⟨notices, hdeclare⟩ := Scoping.declare_local hs token name
      rw [hdeclare, Around.beginning_local ha]
      exact ⟨.cons (hinner.begun hmaking name) houter, h.globals, h.initializing⟩

/-- A name is declared and complete at once. -/
theorem declared (h : s.Shows a) (hown : a.own? = none) (token : Token) (name : String) :
    ((s.declare token name).define name).Shows (a.declaring [name]) := by
  cases ha : a.scopes with
  | nil =>
      have hs := h.scopes_nil.mp ha
      obtain ⟨notices, hdeclare⟩ := Scoping.declare_global hs token name
      rw [hdeclare]
      exact (steady a s s.resolutions notices h).defineGlobal hs name
  | cons o outer =>
      have hmaking : o.making = none := by
        unfold Around.own? at hown
        rwa [ha] at hown
      have hbegun := h.declareLocal ha hmaking token name
      rw [Around.beginning_local ha] at hbegun
      rw [Around.declaring_local ha]
      have hcomplete := hbegun.defineLocal rfl (fun x hx => (Option.some.inj hx).symm)
        (o.names ++ [name]) fun x => by simp
      rwa [← hmaking] at hcomplete

/-- The initial value of a variable begins. -/
theorem begun (h : s.Shows a) (hown : a.own? = none) (token : Token) (name : String) :
    (if (s.declare token name).scopes.isEmpty then
      { s.declare token name with
        initializing := (s.declare token name).initializing.insert name }
      else s.declare token name).Shows (a.beginning name) := by
  cases ha : a.scopes with
  | nil =>
      have hs := h.scopes_nil.mp ha
      have hmaking : a.making = none := by
        unfold Around.own? at hown
        rwa [ha] at hown
      obtain ⟨notices, hdeclare⟩ := Scoping.declare_global hs token name
      rw [hdeclare, Around.beginning_global ha]
      rw [if_pos (List.isEmpty_iff.mpr hs)]
      refine ⟨h.scopes, h.globals, fun x => ?_⟩
      rw [List.mem_insert_iff, h.initializing x, hmaking]
      simp [eq_comm]
  | cons o outer =>
      have hmaking : o.making = none := by
        unfold Around.own? at hown
        rwa [ha] at hown
      have hbegun := h.declareLocal ha hmaking token name
      have hscopes : (s.declare token name).scopes.isEmpty = false := by
        have hnot := (not_congr hbegun.scopes_nil).mp (by simp [Around.beginning_local ha])
        simpa using hnot
      simp only [hscopes, Bool.false_eq_true, if_false]
      exact hbegun

/-- And it ends. -/
theorem ended {names : List String} (h : s.Shows ((a.beginning name).past names))
    (hown : a.own? = none) :
    (Scoping.define { s with initializing := s.initializing.filter (· ≠ name) } name).Shows
      ((a.declaring [name]).past (names ++ [name])) := by
  cases ha : a.scopes with
  | nil =>
      have hmaking : a.making = none := by
        unfold Around.own? at hown
        rwa [ha] at hown
      rw [Around.beginning_global ha] at h
      have hs : s.scopes = [] := h.scopes_nil.mp ha
      let t : Scoping := { s with initializing := s.initializing.filter (· ≠ name) }
      have hfiltered : t.Shows { a with made := a.made ++ (names ++ [name]) } := by
        refine ⟨h.scopes, h.globals, fun x => ?_⟩
        rw [List.mem_filter, h.initializing x, hmaking]
        simp only [decide_not, Bool.not_eq_true', decide_eq_false_iff_not, reduceCtorEq, false_and,
          iff_false, not_and, and_imp, Decidable.not_not]
        exact fun hx _ => (Option.some.inj hx).symm
      rw [← Around.declaring_past]
      exact hfiltered.defineGlobal (s := t) hs name
  | cons o outer =>
      have hmaking : o.making = none := by
        unfold Around.own? at hown
        rwa [ha] at hown
      rw [Around.beginning_local ha] at h
      have hfiltered : Scoping.Shows
          { a with
            scopes := { names := o.names ++ [name], making := some name } :: outer
            made := a.made ++ (names ++ [name]) }
          { s with initializing := s.initializing.filter (· ≠ name) } := by
        refine ⟨h.scopes, h.globals, fun x => ?_⟩
        rw [List.mem_filter, h.initializing x]
        simp [Around.past, and_assoc]
      have hcomplete := hfiltered.defineLocal rfl (fun x hx => (Option.some.inj hx).symm)
        (o.names ++ [name]) fun x => by simp
      rw [Around.declaring_local ha]
      rwa [← hmaking] at hcomplete

theorem enter (h : s.Shows a) : (s.enter []).Shows (a.within []) :=
  ⟨.cons .empty h.scopes, h.globals, h.initializing⟩

theorem enterSingle (h : s.Shows a) (name : String) : (s.enter [name]).Shows (a.within [name]) :=
  ⟨.cons (.completed .empty (fun _ hx => nomatch hx) fun x => by simp) h.scopes, h.globals,
    h.initializing⟩

theorem leave {o : OpenScope} (h : s.Shows { a with scopes := o :: a.scopes }) :
    s.leave.Shows a := by
  have hscopes := h.scopes
  unfold Scoping.leave
  cases hs : s.scopes with
  | nil =>
      rw [hs] at hscopes
      cases hscopes
  | cons inner outer =>
      rw [hs] at hscopes
      exact ⟨(List.forall₂_cons.mp hscopes).2, h.globals, h.initializing⟩

/-- The scopes of a use are searched for its name. -/
theorem hops?_none_iff {os : List OpenScope} {scopes : List StaticScope}
    (h : List.Forall₂ StaticScope.Shows os scopes) (x : String) :
    Scoping.hops? x scopes = none ↔ ∀ o ∈ os, x ∉ o.names := by
  induction h with
  | nil => simp [Scoping.hops?]
  | @cons o scope os scopes ho _ ih =>
      have hcontains := ho.names x
      by_cases hx : x ∈ o.names
      · simp [Scoping.hops?, hcontains.mpr hx, hx]
      · have hnot : scope.names.contains x = false := by
          rw [← Bool.not_eq_true, hcontains]
          exact hx
        simp [Scoping.hops?, hnot, hx, ih]

end Scoping.Shows

/-- The one error about initial values. -/
def StaticError.isOwnInitializer (e : StaticError) : Bool := e = .ownInitializer

namespace Resolve
open Scoping (Shows)
variable {α β : Type} {a a' : Around} {rs rs' : List OwnRead}

/-- From what is declared before to what is declared after, just those of the reads are reported for
which there is no other variable. -/
abbrev Lacking (a a' : Around) (rs : List OwnRead) (p : Resolve α) : Prop :=
  Tells StaticError.isOwnInitializer (Shows a) (Shows a') (lacking rs) p

namespace Lacking

theorem pure {v : α} : Lacking a a [] (Pure.pure v) := Tells.pure

theorem bind {a'' : Around} {p : Resolve β} {f : β → Resolve α} (hp : Lacking a a' rs p)
    (hf : ∀ b, Lacking a' a'' rs' (f b)) : Lacking a a'' (rs ++ rs') (p >>= f) := by
  unfold Lacking
  rw [lacking_append]
  exact Tells.bind hp hf

theorem after {a'' : Around} {p : Resolve β} {f : β → Resolve α} (hp : Lacking a a' [] p)
    (hf : ∀ b, Lacking a' a'' rs (f b)) : Lacking a a'' rs (p >>= f) := Tells.after hp hf

theorem before {a'' : Around} {p : Resolve β} {f : β → Resolve α} (hp : Lacking a a' rs p)
    (hf : ∀ b, Lacking a' a'' [] (f b)) : Lacking a a'' rs (p >>= f) := by
  have h := bind hp hf
  rwa [List.append_nil] at h

theorem other {token : Token} {error : StaticError} (h : error.isOwnInitializer = false) :
    Lacking a a [] (Resolve.report token error) := Tells.other (Shows.steady a) h

theorem checkingOther {c : Scoping → Prop} [DecidablePred c] {token : Token} {error : StaticError}
    {p : Resolve α} (h : error.isOwnInitializer = false) (hp : Lacking a a' rs p) :
    Lacking a a' rs
      (get >>= fun s => if c s then Resolve.report token error >>= fun _ => p else p) :=
  Tells.checking (Tells.checkOther (Shows.steady a) h) hp

theorem declared (hown : a.own? = none) (token : Token) (name : String) :
    Lacking a (a.declaring [name]) [] (Resolve.bind token name) :=
  Tells.modified fun s hs => ⟨hs.declared hown token name,
    ((s.declare token name).reported_define name).trans (s.reported_declare rfl rfl token name)⟩

theorem inScope {p : Resolve α} {names made : List String}
    (hp : Lacking (a.within []) ((a.within names).past made) rs p) :
    Lacking a (a.past made) rs (Resolve.inScope [] p) :=
  Tells.inScope hp (fun _ hs => hs.enter) fun _ hs => hs.leave (a := a.past made)

theorem inScopeOf (name : String) {p : Resolve α} {made : List String}
    (hp : Lacking (a.within [name]) ((a.within [name]).past made) rs p) :
    Lacking a (a.past made) rs (Resolve.inScope [name] p) :=
  Tells.inScope hp (fun _ hs => hs.enterSingle name) fun _ hs => hs.leave (a := a.past made)

theorem inFunction {context : FunctionContext} {p : Resolve α} (hp : Lacking a a' rs p) :
    Lacking a a' rs (Resolve.inFunction context p) :=
  Tells.within hp (fun _ hs => hs.congr rfl rfl rfl) (fun _ _ _ hs => hs.congr rfl rfl rfl)
    (fun _ => rfl) fun _ _ => rfl

theorem inLoop {p : Resolve α} (hp : Lacking a a' rs p) : Lacking a a' rs (Resolve.inLoop p) :=
  Tells.within hp (fun _ hs => hs.congr rfl rfl rfl) (fun _ _ _ hs => hs.congr rfl rfl rfl)
    (fun _ => rfl) fun _ _ => rfl

theorem inClass {context : ClassContext} {p : Resolve α} (hp : Lacking a a' rs p) :
    Lacking a a' rs (Resolve.inClass context p) :=
  Tells.within hp (fun _ hs => hs.congr rfl rfl rfl) (fun _ _ _ hs => hs.congr rfl rfl rfl)
    (fun _ => rfl) fun _ _ => rfl

theorem parameters (hown : a.own? = none) (ps : List Token) :
    Lacking a (a.declaring (ps.map Token.lexeme)) []
      (ps.forM fun p => Resolve.bind p p.lexeme) := by
  induction ps generalizing a with
  | nil =>
      rw [List.map_nil, Around.declaring_nil]
      exact pure
  | cons p ps ih =>
      have hrest := ih (a := a.declaring [p.lexeme]) (by rw [Around.own?_declaring, hown])
      rw [Around.declaring_declaring] at hrest
      exact after (declared hown p p.lexeme) fun _ => hrest

theorem lacking_name (use : NameUse) :
    lacking ((Expr.name use).ownReads a) =
      if a.own? = some use.name.lexeme ∧ a.Lacks use.name.lexeme then
        [⟨.ofToken use.name, .ownInitializer⟩] else [] := by
  unfold Expr.ownReads
  by_cases hown : a.own? = some use.name.lexeme
  · rw [if_pos hown]
    by_cases hlacks : a.Lacks use.name.lexeme
    · simp [lacking, OwnRead.report?, hown, hlacks]
    · simp [lacking, OwnRead.report?, hlacks]
  · simp [hown]

/-- Outside the scope of the variable. -/
theorem readOuter {use : NameUse} {o : OpenScope} {os : List OpenScope} {inner : StaticScope}
    {outer : List StaticScope} (ha : a.scopes = o :: os) (hown : a.own? = some use.name.lexeme)
    {s : Scoping} (hs : s.Shows a) (hscopes : s.scopes = inner :: outer) :
    Tells StaticError.isOwnInitializer (fun t => t = s) (Shows a)
      (lacking ((Expr.name use).ownReads a)) (Resolve.readOuter use outer) := by
  have hforall := hs.scopes
  rw [ha, hscopes] at hforall
  have hnone := Shows.hops?_none_iff (List.forall₂_cons.mp hforall).2 use.name.lexeme
  have hlacks : a.Lacks use.name.lexeme ↔
      Scoping.hops? use.name.lexeme outer = none ∧ use.name.lexeme ∉ s.globals := by
    unfold Around.Lacks
    rw [ha, hnone, hs.globals]
  rw [lacking_name]
  unfold Resolve.readOuter
  dsimp only
  cases hhops : Scoping.hops? use.name.lexeme outer with
  | some hops =>
      have hnot : ¬(a.own? = some use.name.lexeme ∧ a.Lacks use.name.lexeme) := by
        rintro ⟨-, h⟩
        rw [(hlacks.mp h).1] at hhops
        cases hhops
      rw [if_neg hnot]
      refine .after (Q := Shows a) (.modified fun t ht => ?_) fun _ => Tells.pure
      subst ht
      exact ⟨Shows.steady a _ _ _ hs, rfl⟩
  | none =>
      refine .getting fun t ht => ?_
      subst ht
      by_cases hg : use.name.lexeme ∈ t.globals
      · have hnot : ¬(a.own? = some use.name.lexeme ∧ a.Lacks use.name.lexeme) :=
          fun h => (hlacks.mp h.2).2 hg
        rw [if_neg hnot]
        simp only [hg, if_true]
        refine .after (Q := Shows a) (.modified fun u hu => ?_) fun _ => Tells.pure
        subst hu
        refine ⟨Shows.steady a _ _ _ hs, ?_⟩
        unfold Scoping.reported
        rw [Array.toList_push, errorsOf_append]
        exact List.append_nil _
      · rw [if_pos ⟨hown, hlacks.mpr ⟨hhops, hg⟩⟩]
        simp only [hg, if_false]
        exact (Tells.ending (Tells.report (Shows.steady a) rfl)).mono fun u hu => hu ▸ hs

theorem read (use : NameUse) : Lacking a a ((Expr.name use).ownReads a) (Resolve.read use) := by
  refine Tells.getting fun s hs => ?_
  cases hscopes : s.scopes with
  | nil =>
      have ha := hs.scopes_nil.mpr hscopes
      have hcondition : use.name.lexeme ∈ s.initializing ∧ use.name.lexeme ∉ s.globals ↔
          a.own? = some use.name.lexeme ∧ a.Lacks use.name.lexeme := by
        unfold Around.own? Around.Lacks
        rw [ha, hs.initializing, hs.globals]
        exact ⟨fun h => ⟨h.1.1, h.2, h.1.2⟩, fun h => ⟨⟨h.1, h.2.2⟩, h.2.1⟩⟩
      rw [lacking_name]
      simp only [hcondition]
      split
      · exact (Tells.ending (Tells.report (Shows.steady a) rfl)).mono fun u hu => hu ▸ hs
      · exact Tells.pure.mono fun u hu => hu ▸ hs
  | cons inner outer =>
      have hforall := hs.scopes
      rw [hscopes] at hforall
      cases ha : a.scopes with
      | nil =>
          rw [ha] at hforall
          cases hforall
      | cons o os =>
          rw [ha] at hforall
          have hmaking := (List.forall₂_cons.mp hforall).1.making use.name.lexeme
          have hown : a.own? = some use.name.lexeme ↔ o.making = some use.name.lexeme := by
            unfold Around.own?
            rw [ha]
          dsimp only
          by_cases hbegun : inner.names.find? use.name.lexeme = some false
          · rw [if_pos hbegun]
            exact readOuter ha (hown.mpr (hmaking.mp hbegun)) hs hscopes
          · have hnot : ¬(a.own? = some use.name.lexeme ∧ a.Lacks use.name.lexeme) :=
              fun h => hbegun (hmaking.mpr (hown.mp h.1))
            rw [if_neg hbegun, lacking_name, if_neg hnot]
            exact (Tells.lookUp (Shows.steady a) .read use).mono fun u hu => hu ▸ hs

theorem checkFieldWrite (object : Expr) (name : Token) :
    Lacking a a [] (Resolve.checkFieldWrite object name) := by
  unfold Resolve.checkFieldWrite
  split
  · exact Tells.checkOther (c := fun s => s.isConstant _ = true) (Shows.steady a) rfl
  · exact pure

theorem checkSuper (token : Token) : Lacking a a [] (Resolve.checkSuper token) := by
  refine Tells.getting fun s hs => ?_
  split
  · exact (other rfl).mono fun t ht => ht ▸ hs
  · exact (other rfl).mono fun t ht => ht ▸ hs
  · exact pure.mono fun t ht => ht ▸ hs

end Lacking

/-- At a nesting level, the reads of variables in their own initial values are reported. -/
structure LevelLacking (levels : Nat) : Prop where
  expression : ∀ a e, Lacking a (a.past e.made) (e.ownReads a) (expression levels e)
  statement : ∀ a st, a.own? = none → Lacking a (a.after st) (st.ownReads a) (statement levels st)
  method : ∀ a f, Lacking a (a.past f.made) (f.ownReads a) (method levels f)
  functionBody : ∀ a context f,
    Lacking a (a.past f.made) (f.ownReads a) (functionBody levels context f)

namespace LevelLacking
variable {levels : Nat}

theorem expressions (ih : LevelLacking levels) (a : Around) (es : List Expr) :
    Lacking a (a.past (exprMade es)) (exprOwnReads a es) (es.mapM (Resolve.expression levels)) := by
  induction es generalizing a with
  | nil =>
      rw [exprMade, exprOwnReads, Around.past_nil]
      exact Tells.mapM_nil
  | cons e es ih' =>
      rw [exprMade, exprOwnReads, ← Around.past_past]
      unfold Lacking
      rw [lacking_append]
      exact Tells.mapM_cons (ih.expression a e) (ih' _)

theorem optional (ih : LevelLacking levels) (a : Around) (e : Option Expr) :
    Lacking a (a.past (exprMade? e)) (exprOwnReads? a e) (e.mapM (Resolve.expression levels)) := by
  cases e with
  | none =>
      rw [exprMade?, exprOwnReads?, Around.past_nil]
      exact Lacking.pure
  | some e => exact Tells.ending (ih.expression a e)

theorem methods (ih : LevelLacking levels) (a : Around) (fs : List FunctionDecl) :
    Lacking a (a.past (functionMade fs)) (methodOwnReads a fs) (fs.mapM (Resolve.method levels)) := by
  induction fs generalizing a with
  | nil =>
      rw [functionMade, methodOwnReads, Around.past_nil]
      exact Tells.mapM_nil
  | cons f fs ih' =>
      rw [functionMade, methodOwnReads, ← Around.past_past]
      unfold Lacking
      rw [lacking_append]
      exact Tells.mapM_cons (ih.method a f) (ih' _)

theorem expression_succ (ih : LevelLacking levels) (a : Around) (e : Expr) :
    Lacking a (a.past e.made) (e.ownReads a) (Resolve.expression (levels + 1) e) := by
  unfold Resolve.expression
  cases e with
  | literal value =>
      rw [Expr.made, Expr.ownReads, Around.past_nil]
      exact .pure
  | grouping inner =>
      rw [Expr.made, Expr.ownReads]
      exact (ih.expression a inner).ending
  | name use =>
      rw [Expr.made, Around.past_nil]
      exact (Lacking.read use).ending
  | assign use value =>
      rw [Expr.made, Expr.ownReads]
      exact .before (ih.expression a value) fun _ =>
        .checkingOther (c := fun s => s.isConstant use.name.lexeme = true) rfl
          (Tells.lookUp (Shows.steady _) .assign use).ending
  | unary op token operand =>
      rw [Expr.made, Expr.ownReads]
      exact (ih.expression a operand).ending
  | binary left op token right =>
      rw [Expr.made, Expr.ownReads, ← Around.past_past]
      exact .bind (ih.expression a left) fun _ => (ih.expression _ right).ending
  | logical left op token right =>
      rw [Expr.made, Expr.ownReads, ← Around.past_past]
      exact .bind (ih.expression a left) fun _ => (ih.expression _ right).ending
  | call callee paren arguments =>
      rw [Expr.made, Expr.ownReads, ← Around.past_past]
      exact .bind (ih.expression a callee) fun _ => (ih.expressions _ arguments).ending
  | get object name =>
      rw [Expr.made, Expr.ownReads]
      exact (ih.expression a object).ending
  | set object name value =>
      rw [Expr.made, Expr.ownReads, ← Around.past_past]
      exact .bind (ih.expression a value) fun _ =>
        .after (.checkFieldWrite object name) fun _ => (ih.expression _ object).ending
  | this use =>
      rw [Expr.made, Expr.ownReads, Around.past_nil]
      refine Tells.getting fun s hs => ?_
      split
      · exact (Tells.ending (Lacking.other rfl)).mono fun t ht => ht ▸ hs
      · exact (Tells.lookUp (Shows.steady a) .this use).ending.mono fun t ht => ht ▸ hs
  | super use method =>
      rw [Expr.made, Expr.ownReads, Around.past_nil]
      exact .after (.checkSuper use.name) fun _ =>
        (Tells.lookUp (Shows.steady a) .super use).ending
  | lambda function =>
      rw [Expr.made, Expr.ownReads]
      exact (ih.functionBody a .lambda function).ending

theorem statements (ih : LevelLacking levels) {a : Around} (hown : a.own? = none) (ss : List Stmt) :
    Lacking a (ss.foldl (fun a s => a.after s) a) (stmtOwnReads a ss)
      (ss.mapM (Resolve.statement levels)) := by
  induction ss generalizing a with
  | nil => exact Tells.mapM_nil
  | cons s ss ih' =>
      rw [stmtOwnReads, List.foldl_cons]
      unfold Lacking
      rw [lacking_append]
      exact Tells.mapM_cons (ih.statement a s hown) (ih' (by rw [Around.own?_after, hown]))

theorem body (ih : LevelLacking levels) {a : Around} (names : List String) (ss : List Stmt) :
    ∃ names', Lacking (a.within names) ((a.within names').past (stmtMade ss))
      (stmtOwnReads (a.within names) ss) (ss.mapM (Resolve.statement levels)) := by
  have h := ih.statements (a := a.within names) rfl ss
  rw [Around.foldl_after, Around.declaring_within] at h
  exact ⟨_, h⟩

/-- A variable is in the making while its initial value is resolved. -/
theorem var (ih : LevelLacking levels) {a : Around} (hown : a.own? = none) (m : Mutability)
    (name : Token) (initial : Option Expr) :
    Lacking a (a.after (.var m name initial)) ((Stmt.var m name initial).ownReads a)
      (Resolve.statement (levels + 1) (.var m name initial)) := by
  let Declared (s : Scoping) : Prop := ∃ t, Shows a t ∧ s = t.declare name name.lexeme
  have hdeclare : Tells StaticError.isOwnInitializer (Shows a) Declared []
      (modify fun s => s.declare name name.lexeme) :=
    .modified fun s hs => ⟨⟨s, hs, rfl⟩, s.reported_declare rfl rfl name name.lexeme⟩
  have hreported : ∀ s : Scoping, ((s.define name.lexeme).setMutability name.lexeme m).reported
      StaticError.isOwnInitializer = s.reported StaticError.isOwnInitializer := fun s =>
    ((s.define name.lexeme).reported_setMutability name.lexeme m).trans (s.reported_define _)
  unfold Resolve.statement
  rw [Around.after, Stmt.introduces, Stmt.ownReads]
  cases initial with
  | none =>
      rw [Stmt.made, exprOwnReads?, Around.past_nil]
      refine hdeclare.after fun _ => Tells.after Tells.pure fun _ =>
        Tells.ending (.modified fun s hs => ⟨?_, hreported s⟩)
      obtain ⟨t, ht, rfl⟩ := hs
      exact (ht.declared hown name name.lexeme).setMutability name.lexeme m
  | some e =>
      rw [Stmt.made, exprOwnReads?]
      let Made (s : Scoping) : Prop := ∃ t, Shows ((a.beginning name.lexeme).past e.made) t ∧
        s = { t with initializing := t.initializing.filter (· ≠ name.lexeme) }
      have hinitial : Tells StaticError.isOwnInitializer Declared Made
          (lacking (e.ownReads (a.beginning name.lexeme)))
          (Resolve.initializing name.lexeme (Resolve.expression levels e)) := by
        rw [Visiting.initializing_eq]
        refine Tells.within (ih.expression (a.beginning name.lexeme) e) (fun s hs => ?_)
          (fun _ s _ hs => ⟨s, hs, rfl⟩) (fun s => by split <;> rfl) fun _ _ => rfl
        obtain ⟨t, ht, rfl⟩ := hs
        exact ht.begun hown name name.lexeme
      have hrest : ∀ initial' : Option Expr, Tells StaticError.isOwnInitializer Made
          (Shows ((a.declaring [name.lexeme]).past (e.made ++ [name.lexeme]))) [] (do
            modify fun s => (s.define name.lexeme).setMutability name.lexeme m
            return Stmt.var m name initial') := fun initial' =>
        Tells.ending (.modified fun s hs => by
          refine ⟨?_, hreported s⟩
          obtain ⟨t, ht, rfl⟩ := hs
          exact (ht.ended hown).setMutability name.lexeme m)
      have h := hdeclare.after fun _ => (Tells.ending (f := some) hinitial).bind hrest
      rwa [List.append_nil] at h

theorem statement_succ (ih : LevelLacking levels) {a : Around} (hown : a.own? = none) (st : Stmt) :
    Lacking a (a.after st) (st.ownReads a) (Resolve.statement (levels + 1) st) := by
  cases st with
  | var m name initial => exact ih.var hown m name initial
  | expression e =>
      unfold Resolve.statement
      rw [Around.after, Stmt.made, Stmt.introduces, Stmt.ownReads, Around.declaring_nil]
      exact (ih.expression a e).ending
  | print e =>
      unfold Resolve.statement
      rw [Around.after, Stmt.made, Stmt.introduces, Stmt.ownReads, Around.declaring_nil]
      exact (ih.expression a e).ending
  | block body =>
      unfold Resolve.statement
      rw [Around.after, Stmt.made, Stmt.introduces, Stmt.ownReads, Around.declaring_nil]
      obtain ⟨names, hbody⟩ := ih.body (a := a) [] body
      exact hbody.inScope.ending
  | «if» condition thenBranch elseBranch =>
      unfold Resolve.statement
      rw [Around.after, Stmt.made, Stmt.introduces, Stmt.ownReads]
      have hcondition := ih.expression a condition
      have hthen := ih.statement (a.past condition.made) thenBranch hown
      have helse : Lacking ((a.past condition.made).after thenBranch)
          ((((a.past condition.made).after thenBranch).declaring (stmtIntroduces? elseBranch)).past
            (stmtMade? elseBranch))
          (stmtOwnReads? ((a.past condition.made).after thenBranch) elseBranch)
          (elseBranch.mapM (Resolve.statement levels)) := by
        cases elseBranch with
        | none =>
            rw [stmtIntroduces?, stmtMade?, stmtOwnReads?, Around.declaring_nil, Around.past_nil]
            exact Lacking.pure
        | some st =>
            exact (ih.statement _ st (by rw [Around.own?_after, Around.own?_past, hown])).ending
      have h := Lacking.bind hcondition fun condition' => .bind hthen fun thenBranch' =>
        Tells.ending (f := fun elseBranch' => Stmt.if condition' thenBranch' elseBranch') helse
      simpa [Around.after] using h
  | «while» condition body increment =>
      unfold Resolve.statement
      rw [Around.after, Stmt.made, Stmt.introduces, Stmt.ownReads]
      have hbody := ih.statement (a.past condition.made) body hown
      have h := Lacking.inLoop (Lacking.bind (ih.expression a condition) fun condition' =>
        .bind hbody fun body' =>
          Tells.ending (f := fun increment' => Stmt.while condition' body' increment')
            (ih.optional _ increment))
      simpa [Around.after] using h
  | «break» keyword =>
      unfold Resolve.statement
      rw [Around.after, Stmt.made, Stmt.introduces, Stmt.ownReads, Around.declaring_nil,
        Around.past_nil]
      exact .checkingOther (c := fun s => (!s.inLoop) = true) rfl .pure
  | «continue» keyword =>
      unfold Resolve.statement
      rw [Around.after, Stmt.made, Stmt.introduces, Stmt.ownReads, Around.declaring_nil,
        Around.past_nil]
      exact .checkingOther (c := fun s => (!s.inLoop) = true) rfl .pure
  | «return» keyword value =>
      unfold Resolve.statement
      rw [Around.after, Stmt.made, Stmt.introduces, Stmt.ownReads, Around.declaring_nil]
      exact .after (Tells.checkOther (c := fun s => s.function = .none) (Shows.steady a) rfl)
        fun _ => .checkingOther (c := fun s => value.isSome = true ∧ s.function = .initializer) rfl
          (ih.optional a value).ending
  | function f =>
      unfold Resolve.statement
      rw [Around.after, Stmt.made, Stmt.introduces, Stmt.ownReads]
      have hbody := fun names => (ih.functionBody (a.declaring names) .function f).ending
        (f := Stmt.function)
      cases hname : f.name with
      | none =>
          have h := hbody []
          simp only [hname, Option.toList_none, List.map_nil]
          rw [Around.declaring_nil] at h ⊢
          exact h
      | some name =>
          simp only [hname]
          exact .after (.declared hown name name.lexeme) fun _ => hbody [name.lexeme]
  | «class» name superclass methods =>
      unfold Resolve.statement
      rw [Around.after, Stmt.made, Stmt.introduces]
      have hnone : (a.declaring [name.lexeme]).own? = none := by rw [Around.own?_declaring, hown]
      cases superclass with
      | none =>
          rw [Stmt.ownReads]
          exact .inClass (.after (.declared hown name name.lexeme) fun _ =>
            (Lacking.inScopeOf "this" (ih.methods _ methods)).ending)
      | some use =>
          rw [Stmt.ownReads]
          have hread : Lacking (a.declaring [name.lexeme]) (a.declaring [name.lexeme]) []
              (Resolve.read use) := by
            have h := Lacking.read (a := a.declaring [name.lexeme]) use
            rwa [Expr.ownReads, hnone, if_neg (by simp)] at h
          exact .inClass (.after (.declared hown name name.lexeme) fun _ =>
            .checkingOther (c := fun _ => use.name.lexeme = name.lexeme) rfl
              (.after hread fun _ => (Lacking.inScopeOf "super"
                (Lacking.inScopeOf "this" (ih.methods _ methods))).ending))
  | importModule keyword name as =>
      unfold Resolve.statement
      rw [Around.after, Stmt.made, Stmt.introduces, Stmt.ownReads, Around.past_nil]
      cases hname : importNameError? (importedModule name) as.isSome with
      | some error =>
          simp only [hname, Option.isNone_some, Bool.false_eq_true, if_false, Around.declaring_nil]
          have hother : Lacking a a [] (Resolve.report name (.importName error)) := .other rfl
          exact hother.ending
      | none =>
          simp only [hname, Option.isNone_none, if_true]
          exact (Lacking.declared hown _ _).ending

theorem functionBody_succ (ih : LevelLacking levels) (a : Around) (context : FunctionContext)
    (f : FunctionDecl) : Lacking a (a.past f.made) (f.ownReads a)
      (Resolve.functionBody (levels + 1) context f) := by
  obtain ⟨name, parameters, body⟩ := f
  rw [FunctionDecl.made, FunctionDecl.ownReads]
  obtain ⟨names, hbody⟩ := ih.body (a := a) (parameters.map Token.lexeme) body
  have hparameters := Lacking.parameters (a := a.within []) rfl parameters
  rw [Around.declaring_within, List.nil_append] at hparameters
  exact .inFunction (.inScope (.after hparameters fun _ => hbody.ending))

end LevelLacking

theorem lacking (levels : Nat) : LevelLacking levels := by
  induction levels with
  | zero =>
      exact
        { expression := fun _ _ => Tells.throw
          statement := fun _ _ _ => Tells.throw
          method := fun _ _ => Tells.throw
          functionBody := fun _ _ _ => Tells.throw }
  | succ levels ih =>
      exact
        { expression := ih.expression_succ
          statement := fun _ st hown => ih.statement_succ hown st
          method := fun a f => ih.functionBody a (methodContext f) f
          functionBody := ih.functionBody_succ }

end Resolve
/-! ### Accepted units -/

/-- What a node declares in the innermost scope around it. -/
def Node.declares : Node → List (String × Mutability)
  | .stmt s => s.declares
  | .expr _ | .function _ => []

/-- What is declared before a position, and what its node declares, come in that order among the
declarations of the innermost construct. -/
def Position.Ordered (q : Position) : Prop :=
  ∀ f outer, q.frames = f :: outer →
    ∃ rest, f.construct.declares = f.bound ++ (q.node.declares ++ rest)

theorem Position.Ordered.inner {p q : Position} {K : List String} (h : p.Ordered) (hfits : p.Fits K)
    (hi : Inner p q) : q.Ordered := by
  intro g outer hg
  cases hi with
  | @part frames n m hm =>
      obtain ⟨rest, hrest⟩ := h g outer hg
      have hnone : m.declares = [] := by
        cases m with
        | stmt t => exact hfits.part hm
        | expr e => rfl
        | function f => rfl
      exact ⟨n.declares ++ rest, by rw [hrest, hnone, List.nil_append]⟩
  | @initial frames m name e =>
      cases frames with
      | nil => cases hg
      | cons f frames =>
          cases hg
          obtain ⟨rest, hrest⟩ := h _ _ rfl
          exact ⟨[(name.lexeme, m)] ++ rest, hrest⟩
  | @block frames before after s =>
      cases hg
      refine ⟨declarations after, ?_⟩
      change declarations (before ++ s :: after) = _
      unfold declarations
      rw [List.flatMap_append, List.flatMap_cons]
      rfl
  | @declared frames f =>
      cases frames with
      | nil => cases hg
      | cons f₀ frames =>
          cases hg
          obtain ⟨rest, hrest⟩ := h _ _ rfl
          exact ⟨rest, hrest.trans (List.append_assoc ..).symm⟩
  | @body frames f before after s hb =>
      cases hg
      refine ⟨declarations after, ?_⟩
      change f.bindings ++ declarations f.body = _
      unfold declarations
      rw [hb, List.flatMap_append, List.flatMap_cons, List.append_assoc]
      rfl
  | method _ =>
      cases hg
      exact ⟨[], rfl⟩
  | inherited _ =>
      cases hg
      exact ⟨[], rfl⟩

theorem Within.ordered {st : Stmt} {q : Position} {K : List String}
    (h : Everywhere (Position.Fits K) ⟨[], .stmt st⟩) (hq : Within ⟨[], .stmt st⟩ q) :
    q.Ordered := by
  induction hq with
  | refl => exact fun _ _ hf => nomatch hf
  | tail hp hi ih => exact ih.inner (h _ hp) hi

/-- A variable is not declared before its declaration. -/
theorem Within.pending_fresh {st : Stmt} {K : List String} {f : Frame} {outer : List Frame}
    {n : Node} {x : String} (h : Everywhere (Position.Fits K) ⟨[], .stmt st⟩)
    (hq : Within ⟨[], .stmt st⟩ ⟨f :: outer, n⟩) (hp : f.pending = some x) : x ∉ f.names := by
  obtain ⟨frames, m, name, e, hvar, rfl, hframes, -⟩ :=
    hq.initial (show (f :: outer)[0]? = some f from rfl) hp
  cases frames with
  | nil => cases hframes
  | cons f₀ frames =>
      cases hframes
      obtain ⟨rest, hrest⟩ := hvar.ordered h _ _ rfl
      have hdistinct := ((hvar.housed h).frames f₀ (List.mem_cons_self ..)).distinct
      unfold Construct.Distinct at hdistinct
      rw [hrest, List.map_append, List.nodup_append] at hdistinct
      -- A scope declares each name once: what comes next is none of those that are bound before.
      intro hx
      exact hdistinct.2.2 _ hx _ (List.mem_cons_self ..) rfl

/-- A read in the own initial value looks further outward only. -/
theorem NameUse.Lexical.outward {use : NameUse} {f : Frame} {outer : List Frame}
    (h : use.Lexical .read (f :: outer)) (hfresh : use.name.lexeme ∉ f.names) (n : Nat) :
    use.hops = some n ↔
      ∃ m, n = m + 1 ∧ Innermost (fun _ g => g.Knows use.name.lexeme) outer m := by
  rw [h n]
  have hfirst : ¬f.Offers .read use.name.lexeme 0 := by
    rintro (hx | ⟨-, hpos⟩)
    · exact hfresh hx
    · exact Nat.lt_irrefl 0 (hpos rfl)
  cases n with
  | zero => simp [Innermost.cons_zero, hfirst]
  | succ n =>
      rw [Innermost.cons_succ]
      simp only [hfirst, not_false_eq_true, true_and, Nat.add_right_cancel_iff, exists_eq_left']
      refine Innermost.congr fun m g _ => ?_
      exact or_congr_right ⟨And.left, fun hp => ⟨hp, fun _ => Nat.succ_pos m⟩⟩

namespace UnitText
variable {t : UnitText}

/-- In a unit that was read without errors, whatever else is wrong with it, a read in the initial
value of the variable of that name is reported just if there is no other variable of the name; where
nesting goes beyond the limit, of those only the first ones. If the unit is accepted, there is
always another variable, and such a read in a scope has the hops to the innermost scope further
outward that knows the name, and no hops, so that the global is meant, if there is none. -/
theorem own_initial_reads (h : t.Readable) :
    (errorsOf StaticError.isOwnInitializer t.notices =
        lacking (stmtOwnReads { globals := t.globals } t.parsed.statements) ∨
      t.CutShort ∧ errorsOf StaticError.isOwnInitializer t.notices <+:
        lacking (stmtOwnReads { globals := t.globals } t.parsed.statements)) ∧
    (t.unit.ok = true →
      (∀ r ∈ stmtOwnReads { globals := t.globals } t.parsed.statements,
        ¬r.around.Lacks r.use.name.lexeme) ∧
      ∀ st ∈ t.unit.statements, ∀ (f : Frame) (outer : List Frame) (use : NameUse),
      Within ⟨[], .stmt st⟩ ⟨f :: outer, .expr (.name use)⟩ → f.pending = some use.name.lexeme →
      ∀ n, use.hops = some n ↔ ∃ m, n = m + 1 ∧ (∃ g, outer[m]? = some g ∧ g.Knows use.name.lexeme) ∧
        ∀ k < m, ∀ g, outer[k]? = some g → ¬g.Knows use.name.lexeme) := by
  have hstart : t.start.Shows { globals := t.globals } :=
    ⟨.nil, fun _ => Iff.rfl, fun x => by simp [start]⟩
  have hall := (Resolve.lacking (t.levels / 2)).statements (a := { globals := t.globals }) rfl
    t.parsed.statements
  have hreports := errorsOf_notices h rfl (hall.mono fun s hs => hs ▸ hstart)
  refine ⟨hreports, fun hok => ⟨fun r hr hlacks => ?_,
    fun st hst f outer use hwithin hpending => ?_⟩⟩
  · -- A read without another variable would have been reported, and the unit not accepted.
    have hcount := (notices_ok hok).2
    rcases hreports with hreports | ⟨hshort, -⟩
    · rw [errorsOf_nil hcount] at hreports
      have hnone := List.filterMap_eq_nil_iff.mp hreports.symm r hr
      unfold OwnRead.report? at hnone
      rw [if_pos hlacks] at hnone
      cases hnone
    · exact not_cutShort hcount hshort
  · obtain ⟨before, after, hsplit⟩ := List.append_of_mem hst
    have hplaced := placed hok hsplit
    have hfits := hplaced.mono fun q hq => hq.fits
    have hlexical := lexical hok hst hwithin (.inl ⟨rfl, rfl⟩)
    exact hlexical.outward (hwithin.pending_fresh hfits hpending)

/-- Of four variables whose initial values read a variable of that name, the first two are reported.
The third reads a global; the initial value of the last one has given a local variable of its name a
value of its own before. -/
theorem own_initial_reads_mixed :
    let t : UnitText :=
      { levels := 100, file := "<lox>",
        source := "\x7b var a = a; \x7d var b = b; var c; \x7b var c = c; \x7d var d = (lambda () \x7b var d = 1; \x7d)() + d;" }
    t.Readable ∧ ¬t.CutShort ∧
      errorsOf StaticError.isOwnInitializer t.notices =
        lacking (stmtOwnReads { globals := t.globals } t.parsed.statements) ∧
      (stmtOwnReads { globals := t.globals } t.parsed.statements).map (·.use.name.lexeme) =
        ["a", "b", "c", "d"] ∧
      errorsOf StaticError.isOwnInitializer t.notices =
        [⟨.token "a" 1, .ownInitializer⟩, ⟨.token "b" 1, .ownInitializer⟩] := by
  intro t
  have hread : t.Readable := by
    change (scan t.source).faults ++ t.parsed.reports = []
    decide +kernel
  have hlast : t.notices.getLast? = some (.log (.globalRead "c")) := by decide +kernel
  have hnot : ¬t.CutShort := by
    rintro ⟨place, hplace⟩
    rw [hlast] at hplace
    cases hplace
  exact ⟨hread, hnot, (own_initial_reads hread).1.resolve_right fun h => hnot h.1,
    by decide +kernel, by decide +kernel⟩

end UnitText
end Treewalk
