import Treewalk.Proofs.Scopes.Units

/-!
# Tables of resolved uses

The resolutions of an accepted unit are the hop counts of its visited nodes, in the order of the
visits: nothing else is recorded, and nothing that was found is left out.
-/
namespace Treewalk

namespace Node

/-- What is to be recorded of a node: the hops of the name that it uses. -/
def resolution? : Node → Option Resolution
  | .expr (.name use) => use.hops.map (⟨.read, use.name, ·⟩)
  | .expr (.assign use _) => use.hops.map (⟨.assign, use.name, ·⟩)
  | .expr (.this use) => use.hops.map (⟨.this, use.name, ·⟩)
  | .expr (.super use _) => use.hops.map (⟨.super, use.name, ·⟩)
  | _ => none

/-- A use with hops is recorded under its name. -/
theorem resolution?_of_use {n : Node} {use : NameUse} {hops : Nat} (hu : n.use? = some use)
    (hh : use.hops = some hops) :
    ∃ form, n.resolution? = some ⟨form, use.name, hops⟩ := by
  cases n with
  | expr e =>
      cases e with
      | name use' | «this» use' | «super» use' _ | assign use' _ =>
          cases hu
          exact ⟨_, by
            change use.hops.map _ = _
            rw [hh]
            rfl⟩
      | _ => cases hu
  | stmt s => cases hu
  | function f => cases hu

end Node

/-- What is to be recorded of a visit. -/
def Visit.resolution? : Visit → Option Resolution
  | .visited _ _ n => n.resolution?
  | _ => none

namespace Scoping
variable (s : Scoping)

@[simp] theorem resolutions_report (token : Token) (error : StaticError) :
    (s.report token error).resolutions = s.resolutions := rfl

@[simp] theorem resolutions_declare (token : Token) (name : String) :
    (s.declare token name).resolutions = s.resolutions := by
  unfold declare
  split <;> split <;> rfl

@[simp] theorem resolutions_define (name : String) :
    (s.define name).resolutions = s.resolutions := by
  unfold define
  split <;> rfl

@[simp] theorem resolutions_setMutability (name : String) (m : Mutability) :
    (s.setMutability name m).resolutions = s.resolutions := by
  unfold setMutability
  dsimp only
  split <;> rfl

end Scoping

namespace Resolve
open Scoping
variable {α : Type} {s s' : Scoping} {use use' : NameUse}

/-- Nothing is recorded. -/
def Unrecorded (p : Resolve α) : Prop := ∀ s a s', p s = .ok a s' → s'.resolutions = s.resolutions

theorem Unrecorded.modify {f : Scoping → Scoping}
    (hf : ∀ s : Scoping, (f s).resolutions = s.resolutions) : Unrecorded (modify f) := by
  intro s a s' h
  cases h
  exact hf s

theorem Unrecorded.report (token : Token) (error : StaticError) :
    Unrecorded (Resolve.report token error) := Unrecorded.modify fun _ => rfl

/-- Something is reported if a condition holds. -/
theorem Unrecorded.check {c : Scoping → Prop} [DecidablePred c] (token : Token)
    (error : StaticError) :
    Unrecorded (do if c (← get) then Resolve.report token error else pure ()) := by
  intro s a s' h
  obtain ⟨_, _, hget, h⟩ := Watched.bind_ok h
  cases hget
  by_cases hc : c s
  · simp only [hc, if_true] at h
    exact Unrecorded.report token error s a s' h
  · simp only [hc, if_false] at h
    cases h
    rfl

theorem Unrecorded.bind (token : Token) (name : String) : Unrecorded (Resolve.bind token name) :=
  Unrecorded.modify fun s => by rw [resolutions_define, resolutions_declare]

theorem Unrecorded.checkFieldWrite (object : Expr) (name : Token) :
    Unrecorded (Resolve.checkFieldWrite object name) := by
  intro s a s' h
  unfold Resolve.checkFieldWrite at h
  cases object with
  | name use =>
      exact Unrecorded.check (c := fun s => s.isConstant use.name.lexeme = true) _ _ s a s' h
  | _ =>
      cases h
      rfl

theorem Unrecorded.checkSuper (keyword : Token) : Unrecorded (Resolve.checkSuper keyword) := by
  intro s a s' h
  unfold Resolve.checkSuper at h
  obtain ⟨_, _, hget, h⟩ := Watched.bind_ok h
  cases hget
  cases hc : s.classContext with
  | none =>
      rw [hc] at h
      exact Unrecorded.report _ _ s a s' h
  | root =>
      rw [hc] at h
      exact Unrecorded.report _ _ s a s' h
  | derived =>
      rw [hc] at h
      cases h
      rfl

/-- A use that is looked up is recorded with the hops that are found. -/
structure Recorded (form : UseForm) (use use' : NameUse) (s s' : Scoping) : Prop where
  resolutions : s'.resolutions.toList = s.resolutions.toList ++
    (use'.hops.map (⟨form, use'.name, ·⟩)).toList
  name : use'.name = use.name

theorem record_recorded {form : UseForm} {hops : Nat}
    (h : record form use hops s = .ok use' s') : Recorded form use use' s s' := by
  cases h
  exact ⟨Array.toList_push, rfl⟩

/-- A use that is not found is left as it was. -/
theorem recorded_none {form : UseForm} (hraw : use.hops = none)
    (hs : s'.resolutions = s.resolutions) : Recorded form use use s s' := by
  refine ⟨?_, rfl⟩
  rw [hs, hraw, Option.map_none, Option.toList_none, List.append_nil]

theorem lookUp_recorded {form : UseForm} (hraw : use.hops = none)
    (h : lookUp form use s = .ok use' s') : Recorded form use use' s s' := by
  unfold lookUp at h
  obtain ⟨_, _, hget, h⟩ := Watched.bind_ok h
  cases hget
  cases hh : hops? use.name.lexeme s.scopes with
  | some hops =>
      simp only [hh] at h
      exact record_recorded h
  | none =>
      simp only [hh] at h
      cases h
      exact recorded_none hraw rfl

theorem readOuter_recorded {outer : List StaticScope} (hraw : use.hops = none)
    (h : readOuter use outer s = .ok use' s') : Recorded .read use use' s s' := by
  unfold readOuter at h
  cases hh : hops? use.name.lexeme outer with
  | some hops =>
      simp only [hh] at h
      exact record_recorded h
  | none =>
      simp only [hh] at h
      obtain ⟨_, _, hget, h⟩ := Watched.bind_ok h
      cases hget
      by_cases hg : use.name.lexeme ∈ s.globals
      · simp only [hg, if_true] at h
        obtain ⟨_, _, hlog, h⟩ := Watched.bind_ok h
        cases hlog
        cases h
        exact recorded_none hraw rfl
      · simp only [hg, if_false] at h
        obtain ⟨_, _, hreport, h⟩ := Watched.bind_ok h
        cases hreport
        cases h
        exact recorded_none hraw rfl

theorem read_recorded (hraw : use.hops = none) (h : read use s = .ok use' s') :
    Recorded .read use use' s s' := by
  unfold read at h
  obtain ⟨_, _, hget, h⟩ := Watched.bind_ok h
  cases hget
  cases hs : s.scopes with
  | nil =>
      simp only [hs] at h
      by_cases hg : use.name.lexeme ∈ s.initializing ∧ use.name.lexeme ∉ s.globals
      · simp only [hg, not_false_eq_true, and_self, if_true] at h
        obtain ⟨_, _, hreport, h⟩ := Watched.bind_ok h
        cases hreport
        cases h
        exact recorded_none hraw rfl
      · simp only [hg, if_false] at h
        cases h
        exact recorded_none hraw rfl
  | cons inner outer =>
      simp only [hs] at h
      by_cases hbegun : inner.names.find? use.name.lexeme = some false
      · simp only [hbegun, if_true] at h
        exact readOuter_recorded hraw h
      · simp only [hbegun, if_false] at h
        exact lookUp_recorded hraw h

end Resolve

namespace Visiting
open Watched
variable {α β : Type} {ids : List Nat}

/-- What was recorded is what was visited, and after it `rest`. -/
def Lists (rest : List Resolution) (s : Watched Scoping Visit) : Prop :=
  s.state.resolutions.toList = s.notes.reverse.filterMap Visit.resolution? ++ rest

/-- Whatever is visited is recorded, and in the end something that depends on the result. -/
def Records (r : α → Option Resolution) (p : Visiting α) : Prop :=
  ∀ s a s', p s = .ok a s' → Lists [] s → Lists (r a).toList s'

/-- Whatever is visited is recorded. -/
abbrev Keeps (p : Visiting α) : Prop := Records (fun _ => none) p

namespace Records
variable {r : α → Option Resolution}

theorem pure {a : α} (h : r a = none) : Records r (Pure.pure a) := by
  intro s b s' hr hs
  cases hr
  rw [h]
  exact hs

theorem throw (e : Unit) : Records r (MonadExcept.throw e : Visiting α) := fun _ _ _ h => nomatch h

theorem bind {p : Visiting β} {f : β → Visiting α} (hp : Keeps p) (hf : ∀ b, Records r (f b)) :
    Records r (p >>= f) := by
  intro s a s' h hs
  obtain ⟨b, t, hb, h⟩ := bind_ok h
  exact hf b t a s' h (hp s b t hb hs)

/-- The result is made into one for which the same is recorded. -/
theorem made {r' : β → Option Resolution} {p : Visiting β} (h : Records r' p) (f : β → α)
    (hr : ∀ b, r (f b) = r' b) : Records r (p >>= fun b => Pure.pure (f b)) := by
  intro s a s' hrun hs
  obtain ⟨b, t, hb, hrun⟩ := bind_ok hrun
  cases hrun
  rw [hr b]
  exact h s b _ hb hs

theorem look : Keeps Watched.look := by
  intro s a s' h hs
  cases h
  exact hs

theorem quietly {p : Resolve α} (h : Resolve.Unrecorded p) : Keeps (Watched.quietly p) := by
  intro s a s' hrun hs
  obtain ⟨hrun, hn⟩ := quietly_ok hrun
  unfold Lists
  rw [h _ _ _ hrun, hn]
  exact hs

/-- A use is looked up. -/
theorem found {form : UseForm} {use : NameUse} {p : Resolve NameUse}
    (h : ∀ {s use' s'}, p s = .ok use' s' → Resolve.Recorded form use use' s s') :
    Records (fun use' => use'.hops.map (⟨form, use'.name, ·⟩)) (Watched.quietly p) := by
  intro s use' s' hrun hs
  obtain ⟨hrun, hn⟩ := quietly_ok hrun
  unfold Lists at hs ⊢
  rw [(h hrun).resolutions, hs, hn, List.append_nil]

theorem note {v : Visit} (h : v.resolution? = none) : Keeps (Watched.note v) := by
  intro s a s' hrun hs
  cases hrun
  unfold Lists at hs ⊢
  rw [hs, List.reverse_cons, List.filterMap_append]
  simp only [List.filterMap_cons, h, List.filterMap_nil, List.append_nil, Option.toList_none]

/-- A node is visited when what it uses has been recorded. -/
theorem visit {node : α → Node} {p : Visiting α} (h : Records (fun a => (node a).resolution?) p) :
    Keeps (visit ids node p) := by
  intro s a s' hrun hs
  unfold Visiting.visit at hrun
  obtain ⟨_, _, hlook, hrun⟩ := bind_ok hrun
  cases hlook
  obtain ⟨b, t, hp, hrun⟩ := bind_ok hrun
  cases hrun
  have ht := h s a t hp hs
  unfold Lists at ht ⊢
  rw [ht, List.reverse_cons, List.filterMap_append, List.append_assoc]
  congr 1
  cases hn : (node a).resolution? <;> simp [Visit.resolution?, hn]

theorem forM {f : β → Visiting Unit} (h : ∀ b, Keeps (f b)) (bs : List β) :
    Keeps (bs.forM f) := by
  induction bs with
  | nil => exact pure rfl
  | cons b bs ih => exact bind (h b) fun _ => ih

theorem mapM {f : β → Visiting α} {bs : List β} (h : ∀ b ∈ bs, Keeps (f b)) :
    Keeps (bs.mapM f) := by
  induction bs with
  | nil => exact pure rfl
  | cons b bs ih =>
      rw [List.mapM_cons]
      exact bind (h b (List.mem_cons_self ..)) fun _ =>
        bind (ih fun b hb => h b (List.mem_cons_of_mem _ hb)) fun _ => pure rfl

theorem optional {f : β → Visiting α} {o : Option β} (h : ∀ b ∈ o, Keeps (f b)) :
    Keeps (o.mapM f) := by
  cases o with
  | none => exact pure rfl
  | some b => exact bind (h b rfl) fun _ => pure rfl

theorem within {enter : Scoping → Scoping} {leave : Scoping → Scoping → Scoping} {p : Visiting α}
    (h : Records r p) (henter : ∀ s, (enter s).resolutions = s.resolutions)
    (hleave : ∀ s t, (leave s t).resolutions = t.resolutions) :
    Records r (within enter leave p) := by
  intro s a s' hrun hs
  obtain ⟨t, hrun, hs'⟩ := within_ok hrun
  have hstart : Lists [] ⟨enter s.state, s.notes⟩ := by
    unfold Lists
    rw [henter]
    exact hs
  have ht := h _ _ _ hrun hstart
  rw [hs']
  unfold Lists at ht ⊢
  rw [hleave]
  exact ht

theorem inScope {names : List String} {constructs : α → List Construct}
    {p : List Nat → Visiting α} (h : ∀ ids, Keeps (p ids)) :
    Keeps (inScope ids names constructs p) := by
  have hfresh : Keeps fresh := fun s id s' hrun hs => note (v := .opened) rfl s () s'
    (by cases hrun; rfl) hs
  refine bind hfresh fun id => bind (quietly (.modify fun _ => rfl)) fun _ => ?_
  refine bind (h _) fun a => bind look fun s => bind (forM (fun c => note rfl) _) fun _ => ?_
  exact bind (quietly (.modify fun _ => rfl)) fun _ => pure rfl

end Records

/-- At a nesting level, trees just read are recorded as they are visited. -/
structure LevelKeeps (levels : Nat) : Prop where
  expression : ∀ ids e, (Node.expr e).Unresolved → Keeps (Visiting.expression levels ids e)
  statement : ∀ ids st, (Node.stmt st).Unresolved → Keeps (Visiting.statement levels ids st)
  method : ∀ ids f, (Node.function f).Unresolved → Keeps (Visiting.method levels ids f)
  functionBody : ∀ ids context f, (Node.function f).Unresolved →
    Keeps (Visiting.functionBody levels ids context f)

namespace LevelKeeps
variable {levels : Nat}

theorem expression_succ (ih : LevelKeeps levels) (ids : List Nat) {e : Expr}
    (hraw : (Node.expr e).Unresolved) : Keeps (Visiting.expression (levels + 1) ids e) := by
  have hpart : ∀ m ∈ e.parts, m.Unresolved := fun m hm => hraw.inner (.part hm)
  have huse : ∀ use, (Node.expr e).use? = some use → use.hops = none := hraw.here.2
  unfold Visiting.expression
  refine .visit ?_
  cases e with
  | literal value => exact .pure rfl
  | grouping inner =>
      exact .bind (ih.expression ids inner (hpart _ (List.mem_singleton_self _))) fun _ => .pure rfl
  | name use =>
      exact .made (.found (Resolve.read_recorded (huse use rfl))) _ fun _ => rfl
  | assign use value =>
      refine .bind (ih.expression ids value (hpart _ (List.mem_singleton_self _))) fun value => ?_
      refine .bind (.quietly (.check (c := fun s => s.isConstant use.name.lexeme = true) _ _))
        fun _ => ?_
      exact .made (.found (Resolve.lookUp_recorded (huse use rfl))) _ fun _ => rfl
  | unary op token operand =>
      exact .bind (ih.expression ids operand (hpart _ (List.mem_singleton_self _))) fun _ => .pure rfl
  | binary left op token right =>
      exact .bind (ih.expression ids left (hpart _ (List.mem_cons_self ..))) fun _ =>
        .bind (ih.expression ids right (hpart _ (List.mem_cons_of_mem _ (List.mem_singleton_self _))))
          fun _ => .pure rfl
  | logical left op token right =>
      exact .bind (ih.expression ids left (hpart _ (List.mem_cons_self ..))) fun _ =>
        .bind (ih.expression ids right (hpart _ (List.mem_cons_of_mem _ (List.mem_singleton_self _))))
          fun _ => .pure rfl
  | call callee paren arguments =>
      refine .bind (ih.expression ids callee (hpart _ (List.mem_cons_self ..))) fun _ => ?_
      refine .bind (.mapM fun e he => ih.expression ids e ?_) fun _ => .pure rfl
      exact hpart _ (List.mem_cons_of_mem _ (List.mem_map_of_mem he))
  | get object name =>
      exact .bind (ih.expression ids object (hpart _ (List.mem_singleton_self _))) fun _ => .pure rfl
  | set object name value =>
      refine .bind (ih.expression ids value
        (hpart _ (List.mem_cons_of_mem _ (List.mem_singleton_self _)))) fun _ => ?_
      refine .bind (.quietly (.checkFieldWrite object name)) fun _ => ?_
      exact .bind (ih.expression ids object (hpart _ (List.mem_cons_self ..))) fun _ => .pure rfl
  | this use =>
      refine .bind .look fun w => ?_
      by_cases hclass : w.classContext = .none
      · simp only [hclass, if_true]
        refine .bind (.quietly (.report _ _)) fun _ => .pure ?_
        simp only [Node.resolution?, huse use rfl, Option.map_none]
      · simp only [hclass, if_false]
        exact .made (.found (Resolve.lookUp_recorded (huse use rfl))) _ fun _ => rfl
  | super use method =>
      refine .bind (.quietly (.checkSuper _)) fun _ => ?_
      exact .made (.found (Resolve.lookUp_recorded (huse use rfl))) _ fun _ => rfl
  | lambda function =>
      exact .bind (ih.functionBody ids _ function (hpart _ (List.mem_singleton_self _)))
        fun _ => .pure rfl

theorem statement_succ (ih : LevelKeeps levels) (ids : List Nat) {st : Stmt}
    (hraw : (Node.stmt st).Unresolved) : Keeps (Visiting.statement (levels + 1) ids st) := by
  have hpart : ∀ m ∈ st.parts, m.Unresolved := fun m hm => hraw.inner (.part hm)
  unfold Visiting.statement
  refine .visit ?_
  cases st with
  | expression e =>
      exact .bind (ih.expression ids e (hpart _ (List.mem_singleton_self _))) fun _ => .pure rfl
  | print e =>
      exact .bind (ih.expression ids e (hpart _ (List.mem_singleton_self _))) fun _ => .pure rfl
  | var mutability name initial =>
      refine .bind (.quietly (.modify fun s => s.resolutions_declare _ _)) fun _ => ?_
      refine .bind (.optional fun e he => ?_) fun _ => ?_
      · cases he
        refine .within (ih.expression ids e ((hraw.inner .initial).anywhere [])) (fun s => ?_)
          fun _ _ => rfl
        split <;> rfl
      · refine .bind (.quietly (.modify fun s => ?_)) fun _ => .pure rfl
        rw [Scoping.resolutions_setMutability, Scoping.resolutions_define]
  | block body =>
      refine .bind (.inScope fun ids => .mapM fun st hst => ih.statement ids st ?_) fun _ => .pure rfl
      obtain ⟨before, after, rfl⟩ := List.append_of_mem hst
      exact (hraw.inner .block).anywhere []
  | «if» condition thenBranch elseBranch =>
      refine .bind (ih.expression ids condition (hpart _ (List.mem_cons_self ..))) fun _ => ?_
      refine .bind (ih.statement ids thenBranch
        (hpart _ (List.mem_cons_of_mem _ (List.mem_cons_self ..)))) fun _ => ?_
      refine .bind (.optional fun st hst => ih.statement ids st ?_) fun _ => .pure rfl
      cases hst
      exact hpart _ (List.mem_cons_of_mem _ (List.mem_cons_of_mem _ (List.mem_singleton_self _)))
  | «while» condition body increment =>
      refine .within ?_ (fun _ => rfl) fun _ _ => rfl
      refine .bind (ih.expression ids condition (hpart _ (List.mem_cons_self ..))) fun _ => ?_
      refine .bind (ih.statement ids body
        (hpart _ (List.mem_cons_of_mem _ (List.mem_cons_self ..)))) fun _ => ?_
      refine .bind (.optional fun e he => ih.expression ids e ?_) fun _ => .pure rfl
      cases he
      exact hpart _ (List.mem_cons_of_mem _ (List.mem_cons_of_mem _ (List.mem_singleton_self _)))
  | «break» keyword =>
      exact .bind (.quietly (.check (c := fun s => (!s.inLoop) = true) _ _)) fun _ => .pure rfl
  | «continue» keyword =>
      exact .bind (.quietly (.check (c := fun s => (!s.inLoop) = true) _ _)) fun _ => .pure rfl
  | «return» keyword value =>
      refine .bind (.quietly (.check (c := fun s => s.function = .none) _ _)) fun _ => ?_
      refine .bind (.quietly (.check
        (c := fun s => value.isSome = true ∧ s.function = .initializer) _ _)) fun _ => ?_
      refine .bind (.optional fun e he => ih.expression ids e ?_) fun _ => .pure rfl
      cases he
      exact hpart _ (List.mem_singleton_self _)
  | function f =>
      have hf := (hraw.inner .declared).anywhere []
      refine .bind (.quietly ?_) fun _ => .bind (ih.functionBody ids _ f hf) fun _ => .pure rfl
      intro s a s' h
      cases hname : f.name with
      | none =>
          simp only [hname] at h
          cases h
          rfl
      | some name =>
          simp only [hname] at h
          exact Resolve.Unrecorded.bind _ _ s a s' h
  | «class» name superclass methods =>
      cases superclass with
      | none =>
          have hmethods : ∀ f ∈ methods, (Node.function f).Unresolved := fun f hf =>
            (hraw.inner (.method hf)).anywhere []
          refine .within ?_ (fun _ => rfl) fun _ _ => rfl
          refine .bind (.quietly (.bind _ _)) fun _ => ?_
          exact .bind (.inScope fun ids => .mapM fun f hf => ih.method ids f (hmethods f hf))
            fun _ => .pure rfl
      | some superclass =>
          have hmethods : ∀ f ∈ methods, (Node.function f).Unresolved := fun f hf =>
            (hraw.inner (.inherited hf)).anywhere []
          have huse := (hpart _ (List.mem_singleton_self _)).here.2 superclass rfl
          refine .within ?_ (fun _ => rfl) fun _ _ => rfl
          refine .bind (.quietly (.bind _ _)) fun _ => .bind (.quietly ?_) fun _ => ?_
          · by_cases hself : superclass.name.lexeme = name.lexeme
            · simp only [hself, if_true]
              exact .report _ _
            · simp only [hself, if_false]
              exact .modify (f := id) fun _ => rfl
          · refine .bind (.visit (.found (Resolve.read_recorded huse))) fun _ => ?_
            exact .bind (.inScope fun ids => .inScope fun ids =>
              .mapM fun f hf => ih.method ids f (hmethods f hf)) fun _ => .pure rfl
  | importModule keyword name as =>
      refine .bind (.quietly ?_) fun _ => .pure rfl
      cases importNameError? (importedModule name) as.isSome with
      | some error => exact .report _ _
      | none => exact .bind _ _

theorem functionBody_succ (ih : LevelKeeps levels) (ids : List Nat) (context : FunctionContext)
    {f : FunctionDecl} (hraw : (Node.function f).Unresolved) :
    Keeps (Visiting.functionBody (levels + 1) ids context f) := by
  obtain ⟨name, parameters, body⟩ := f
  unfold Visiting.functionBody
  refine .visit (.within (.inScope fun ids => ?_) (fun _ => rfl) fun _ _ => rfl)
  refine .bind (.forM (fun p => .quietly (.bind _ _)) _) fun _ => ?_
  refine .bind (.mapM fun st hst => ih.statement ids st ?_) fun _ => .pure rfl
  obtain ⟨before, after, rfl⟩ := List.append_of_mem hst
  exact (hraw.inner (.body rfl)).anywhere []

end LevelKeeps

theorem keeps (levels : Nat) : LevelKeeps levels := by
  induction levels with
  | zero =>
      exact
        { expression := fun _ _ _ => .throw ()
          statement := fun _ _ _ => .throw ()
          method := fun _ _ _ => .throw ()
          functionBody := fun _ _ _ _ => .throw () }
  | succ levels ih =>
      exact
        { expression := fun ids _ h => ih.expression_succ ids h
          statement := fun ids _ h => ih.statement_succ ids h
          method := fun ids f h => ih.functionBody ids (Resolve.methodContext f) f h
          functionBody := fun ids context _ h => ih.functionBody_succ ids context h }

end Visiting

namespace UnitText
variable {t : UnitText}

/-- The table of an accepted unit is what was visited. -/
theorem resolutions_eq (h : t.unit.ok = true) :
    t.unit.resolutions = t.visits.reverse.filterMap Visit.resolution? := by
  obtain ⟨s, hs⟩ := resolution_ok h
  have hkeeps : Visiting.Keeps (Visiting.statements (t.levels / 2) t.parsed.statements) :=
    .mapM fun st hst => (Visiting.keeps _).statement [] st (unresolved h st hst)
  have hlists := hkeeps _ _ _ hs.watched rfl
  have hvisits : t.visits = s.notes := by
    unfold visits
    rw [hs.watched]
  rw [hs.table, hlists, hvisits]
  exact List.append_nil _

/-- A use in an accepted unit that has hops is in its table. -/
theorem listed (h : t.unit.ok = true) {st : Stmt} {q : Position} {use : NameUse} {hops : Nat}
    (hst : st ∈ t.unit.statements) (hq : Within ⟨[], .stmt st⟩ q) (hu : q.node.use? = some use)
    (hh : use.hops = some hops) : ∃ form, ⟨form, use.name, hops⟩ ∈ t.unit.resolutions := by
  obtain ⟨before, after, he⟩ := List.append_of_mem hst
  obtain ⟨inside, -, scopes, hvisited, -⟩ := (placed h he q hq).visited
  obtain ⟨form, hform⟩ := Node.resolution?_of_use hu hh
  rw [resolutions_eq h]
  exact ⟨form, List.mem_filterMap.mpr ⟨_, List.mem_reverse.mpr hvisited, hform⟩⟩

end UnitText
end Treewalk
