import Treewalk.Proofs.Scopes.Passing

/-!
# Resolved trees

Name resolution without errors leaves every position inside a tree resolved, whatever frames stand
around the tree, so long as the open scopes agree with them. The proof is by induction on the nesting
levels left; a state is followed through each construct from the scope it opens to the one it closes.
-/
namespace Treewalk

namespace Visiting
open Watched Scoping
variable {α β : Type} {s s' t u : Watched Scoping Visit} {ids : List Nat}

/-- At a nesting level, trees just read become resolved trees. -/
structure LevelPlaces (levels : Nat) : Prop where
  expression : ∀ {ids : List Nat} {e e' : Expr} {s s' : Watched Scoping Visit},
    (Node.expr e).Unresolved → Visiting.expression levels ids e s = .ok e' s' →
    Passes s s' ∧ Places ids s s' (.expr e')
  statement : ∀ {ids : List Nat} {st st' : Stmt} {s s' : Watched Scoping Visit},
    (Node.stmt st).Unresolved → Visiting.statement levels ids st s = .ok st' s' →
    Declares st'.declares s s' ∧ st'.declares = st.declares ∧ Places ids s s' (.stmt st')
  method : ∀ {ids : List Nat} {f f' : FunctionDecl} {s s' : Watched Scoping Visit},
    (Node.function f).Unresolved → Visiting.method levels ids f s = .ok f' s' →
    Passes s s' ∧ Places ids s s' (.function f')
  functionBody : ∀ {ids : List Nat} {context : FunctionContext} {f f' : FunctionDecl}
    {s s' : Watched Scoping Visit}, (Node.function f).Unresolved →
    Visiting.functionBody levels ids context f s = .ok f' s' →
    Passes s s' ∧ Places ids s s' (.function f') ∧ f'.name = f.name

namespace LevelPlaces
variable {levels : Nat}

theorem assign_places (ih : LevelPlaces levels) {use : NameUse} {value e' : Expr}
    (hraw : (Node.expr (.assign use value)).Unresolved)
    (h : Visiting.expression (levels + 1) ids (.assign use value) s = .ok e' s') :
    Passes s s' ∧ Places ids s s' (.expr e') := by
  unfold Visiting.expression at h
  obtain ⟨t, h, hs'⟩ := visit_ok h
  rw [hs']
  have hnew : use.hops = none := hraw.here.2 use rfl
  have hrawvalue := hraw.inner (.part (List.mem_singleton_self (Node.expr value)))
  obtain ⟨value', u, hv, h⟩ := bind_ok h
  obtain ⟨_, u', hcheck, h⟩ := bind_ok h
  obtain ⟨use', u'', hlook, h⟩ := bind_ok h
  cases h
  obtain ⟨hsu, hvalue⟩ := ih.expression hrawvalue hv
  obtain ⟨hcheck, hnotes⟩ := quietly_ok hcheck
  obtain ⟨hlook, hnotes'⟩ := quietly_ok hlook
  obtain ⟨hfollows, hconst⟩ :=
    Resolve.check_ok (c := fun s => s.isConstant use.name.lexeme = true) hcheck
  obtain ⟨hfollows', -, -⟩ := Resolve.lookUp_ok hnew hlook
  have huu' : Passes u u' := .of_follows hfollows hnotes
  have hu't : Passes u' t := .of_follows hfollows' hnotes'
  refine places_expr (hsu.trans (huu'.trans hu't))
    (List.forall_mem_singleton.mpr (hvalue.after (huu'.trans hu't).toExtends))
    fun hc K frames ha => ?_
  have hu' := (hsu.trans huu').agrees (hu't.clean hc) ha
  have hnot : u'.state.isConstant use.name.lexeme = false := by
    have hnot := hconst (hu't.clean hc)
    rw [Bool.not_eq_true] at hnot
    unfold Scoping.isConstant at hnot ⊢
    rw [hfollows.scopes, hfollows.constants]
    exact hnot
  exact ⟨Resolve.lookUp_assigns hnew hnot hlook hu',
    Resolve.lookUp_lexical hnew hlook hu' fun _ _ _ h => by cases h⟩

theorem this_places {use : NameUse} {e' : Expr} (hraw : (Node.expr (.this use)).Unresolved)
    (h : Visiting.expression (levels + 1) ids (.this use) s = .ok e' s') :
    Passes s s' ∧ Places ids s s' (.expr e') := by
  unfold Visiting.expression at h
  obtain ⟨t, h, hs'⟩ := visit_ok h
  rw [hs']
  have hnew : use.hops = none := hraw.here.2 use rfl
  obtain ⟨_, _, hlook, h⟩ := bind_ok h
  cases hlook
  by_cases hclass : s.state.classContext = .none
  · simp only [hclass, if_true] at h
    obtain ⟨_, u, hreport, h⟩ := bind_ok h
    cases h
    obtain ⟨hst, hdirty⟩ := quietly_reports hreport
    exact places_expr hst (List.forall_mem_nil _) fun hc _ _ _ => (hdirty hc).elim
  · simp only [hclass, if_false] at h
    obtain ⟨use', u, hlook, h⟩ := bind_ok h
    cases h
    obtain ⟨hlook, hnotes⟩ := quietly_ok hlook
    obtain ⟨hfollows, -, -⟩ := Resolve.lookUp_ok hnew hlook
    have hword : TokenKind.ofWord use.name.lexeme = .this := hraw.here.1
    exact places_expr (.of_follows hfollows hnotes) (List.forall_mem_nil _)
      fun _ K frames ha => Resolve.lookUp_this hnew hword hlook ha

theorem operands_places (ih : LevelPlaces levels) {left left' right right' : Expr}
    (hrawl : (Node.expr left).Unresolved) (hrawr : (Node.expr right).Unresolved)
    (hl : Visiting.expression levels ids left s = .ok left' u)
    (hr : Visiting.expression levels ids right u = .ok right' t) :
    Passes s t ∧ ∀ m ∈ [Node.expr left', Node.expr right'], Places ids s t m := by
  obtain ⟨hsu, hleft⟩ := ih.expression hrawl hl
  obtain ⟨hut, hright⟩ := ih.expression hrawr hr
  refine ⟨hsu.trans hut, List.forall_mem_cons.mpr ⟨hleft.after hut.toExtends, ?_⟩⟩
  exact List.forall_mem_singleton.mpr (.before hsu hut.toExtends hright)

theorem expression_succ (ih : LevelPlaces levels) {e e' : Expr} (hraw : (Node.expr e).Unresolved)
    (h : Visiting.expression (levels + 1) ids e s = .ok e' s') :
    Passes s s' ∧ Places ids s s' (.expr e') := by
  have hall := h
  unfold Visiting.expression at h
  obtain ⟨t, h, hs'⟩ := visit_ok h
  rw [hs']
  have hpart : ∀ m ∈ e.parts, m.Unresolved := fun m hm => hraw.inner (.part hm)
  have huse : ∀ use, (Node.expr e).use? = some use → use.hops = none := hraw.here.2
  cases e with
  | literal value =>
      cases h
      exact places_expr (.refl s) (List.forall_mem_nil _) fun _ _ _ _ => trivial
  | grouping inner =>
      obtain ⟨inner', u, hi, h⟩ := bind_ok h
      cases h
      obtain ⟨hsu, hin⟩ := ih.expression (hpart _ (List.mem_singleton_self _)) hi
      exact places_expr hsu (List.forall_mem_singleton.mpr hin) fun _ _ _ _ => trivial
  | name use =>
      obtain ⟨use', u, hread, h⟩ := bind_ok h
      cases h
      obtain ⟨hread, hnotes⟩ := quietly_ok hread
      obtain ⟨hfollows, -, hlexical⟩ := Resolve.read_ok (huse use rfl) hread
      exact places_expr (.of_follows hfollows hnotes) (List.forall_mem_nil _)
        fun _ K frames ha => hlexical K frames ha
  | assign use value =>
      rw [← hs']
      exact ih.assign_places hraw hall
  | unary op token operand =>
      obtain ⟨operand', u, ho, h⟩ := bind_ok h
      cases h
      obtain ⟨hsu, hoperand⟩ := ih.expression (hpart _ (List.mem_singleton_self _)) ho
      exact places_expr hsu (List.forall_mem_singleton.mpr hoperand) fun _ _ _ _ => trivial
  | binary left op token right | logical left op token right =>
      obtain ⟨left', u, hl, h⟩ := bind_ok h
      obtain ⟨right', v, hr, h⟩ := bind_ok h
      cases h
      obtain ⟨hst, hplaces⟩ := ih.operands_places (hpart _ (List.mem_cons_self ..))
        (hpart _ (List.mem_cons_of_mem _ (List.mem_singleton_self _))) hl hr
      exact places_expr hst hplaces fun _ _ _ _ => trivial
  | call callee paren arguments =>
      obtain ⟨callee', u, hcallee, h⟩ := bind_ok h
      obtain ⟨arguments', v, hargs, h⟩ := bind_ok h
      cases h
      obtain ⟨hsu, hc⟩ := ih.expression (hpart _ (List.mem_cons_self ..)) hcallee
      have hargument : ∀ e ∈ arguments, (Node.expr e).Unresolved := fun e he =>
        hpart _ (List.mem_cons_of_mem _ (List.mem_map_of_mem he))
      obtain ⟨hut, has⟩ := mapM_places .expr
        (fun e he _ _ _ h => ih.expression (hargument e he) h) hargs
      refine places_expr (hsu.trans hut) (List.forall_mem_cons.mpr ⟨hc.after hut.toExtends, ?_⟩)
        fun _ _ _ _ => trivial
      intro m hm
      obtain ⟨e, he, rfl⟩ := List.mem_map.mp hm
      exact .before hsu hut.toExtends (has e he)
  | get object name =>
      obtain ⟨object', u, ho, h⟩ := bind_ok h
      cases h
      obtain ⟨hsu, hobject⟩ := ih.expression (hpart _ (List.mem_singleton_self _)) ho
      exact places_expr hsu (List.forall_mem_singleton.mpr hobject) fun _ _ _ _ => trivial
  | set object name value =>
      obtain ⟨value', u, hv, h⟩ := bind_ok h
      obtain ⟨_, u', hcheck, h⟩ := bind_ok h
      obtain ⟨object', v, ho, h⟩ := bind_ok h
      cases h
      obtain ⟨hsu, hvalue⟩ :=
        ih.expression (hpart _ (List.mem_cons_of_mem _ (List.mem_singleton_self _))) hv
      have huu' := quietly_passes hcheck Resolve.checkFieldWrite_ok
      obtain ⟨hut, hobject⟩ := ih.expression (hpart _ (List.mem_cons_self ..)) ho
      have hsu' := hsu.trans huu'
      exact places_expr (hsu'.trans hut)
        (List.forall_mem_cons.mpr ⟨.before hsu' hut.toExtends hobject,
          List.forall_mem_singleton.mpr (hvalue.after (huu'.trans hut).toExtends)⟩)
        fun _ _ _ _ => trivial
  | this use =>
      rw [← hs']
      exact this_places hraw hall
  | super use method =>
      obtain ⟨_, u, hcheck, h⟩ := bind_ok h
      obtain ⟨use', v, hlook, h⟩ := bind_ok h
      cases h
      have hsu := quietly_passes hcheck Resolve.checkSuper_ok
      obtain ⟨hlook, hnotes⟩ := quietly_ok hlook
      obtain ⟨hfollows, -, -⟩ := Resolve.lookUp_ok (huse use rfl) hlook
      have hut : Passes u t := .of_follows hfollows hnotes
      refine places_expr (hsu.trans hut) (List.forall_mem_nil _) fun hc K frames ha => ?_
      have hu := hsu.agrees (hut.clean hc) ha
      exact Resolve.lookUp_lexical (huse use rfl) hlook hu fun _ _ _ h => by cases h
  | lambda function =>
      obtain ⟨function', u, hf, h⟩ := bind_ok h
      cases h
      obtain ⟨hsu, hfunction, -⟩ := ih.functionBody (hpart _ (List.mem_singleton_self _)) hf
      exact places_expr hsu (List.forall_mem_singleton.mpr hfunction) fun _ _ _ _ => trivial

theorem bind_declares {token : Token} {name : String} {v : Unit}
    (h : quietly (Resolve.bind token name) s = .ok v s') : Declares [(name, .variable)] s s' := by
  obtain ⟨h, hn⟩ := quietly_ok h
  have hstate : s'.state = (s.state.declare token name).define name := by
    exact (EStateM.Result.ok.inj h).2.symm
  constructor
  · constructor
    · intro hc
      rw [hstate, clean_define] at hc
      exact clean_of_declare hc
    · exact fun _ hv => hn ▸ hv
  · intro hc K frames hready ha
    rw [hstate] at hc ⊢
    rw [globally_variable]
    exact ha.bind hready hc

theorem parameters_declare {parameters : List Token} {v : Unit}
    (h : (parameters.forM fun p => quietly (Resolve.bind p p.lexeme) : Visiting Unit) s =
      .ok v s') : Declares (parameters.map fun p => (p.lexeme, .variable)) s s' := by
  induction parameters generalizing s with
  | nil =>
      cases h
      exact (Passes.refl _).declares
  | cons p parameters ih =>
      obtain ⟨_, t, hp, h⟩ := bind_ok h
      exact (bind_declares hp).trans (ih h)

/-- Statements see the declarations of the statements before them. -/
theorem statements_places (ih : LevelPlaces levels) {body body' : List Stmt}
    (hraw : ∀ st ∈ body, (Node.stmt st).Unresolved)
    (h : body.mapM (Visiting.statement levels ids) s = .ok body' s') :
    Declares (declarations body') s s' ∧
      ∀ before st after, body' = before ++ st :: after → s'.state.Clean →
        ∀ {K : List String} {frames : List Frame}, Settled frames → s.state.Agrees K frames →
          Everywhere (Placed (globally K (declarations before) frames) s'.notes ids
            (frames.map Frame.construct)) ⟨declaring (declarations before) frames, .stmt st⟩ := by
  induction body generalizing s body' with
  | nil =>
      cases h
      exact ⟨(Passes.refl _).declares, fun before st after he => by cases before <;> cases he⟩
  | cons st₀ body ihbody =>
      rw [List.mapM_cons] at h
      obtain ⟨st', t, hst, h⟩ := bind_ok h
      obtain ⟨rest, u, hrest, h⟩ := bind_ok h
      cases h
      obtain ⟨hdst, -, hpst⟩ := ih.statement (hraw st₀ (List.mem_cons_self ..)) hst
      obtain ⟨hdrest, hprest⟩ :=
        ihbody (fun st hst => hraw st (List.mem_cons_of_mem _ hst)) hrest
      refine ⟨hdst.trans hdrest, fun before st after he hc K frames hready ha => ?_⟩
      cases before with
      | nil =>
          cases he
          have hhere := hpst (hdrest.clean hc) hready ha
          rw [show declarations [] = [] from rfl, globally_nil, declaring_nil]
          exact hhere.mono fun _ hq => hq.mono hdrest.notes
      | cons st₁ before =>
          cases he
          have ht := hdst.agrees (hdrest.clean hc) hready ha
          have hthere := hprest before st after rfl hc (hready.declaring _) ht
          rw [globally_append, declaring_append, constructs_declaring] at hthere
          exact hthere

theorem functionBody_succ (ih : LevelPlaces levels) {context : FunctionContext}
    {f f' : FunctionDecl} (hraw : (Node.function f).Unresolved)
    (h : Visiting.functionBody (levels + 1) ids context f s = .ok f' s') :
    Passes s s' ∧ Places ids s s' (.function f') ∧ f'.name = f.name := by
  obtain ⟨name, parameters, body⟩ := f
  unfold Visiting.functionBody at h
  obtain ⟨t, h, hs'⟩ := visit_ok h
  obtain ⟨u, h, ht⟩ := within_ok h
  have henter : Passes s ⟨{ s.state with function := context, inLoop := false }, s.notes⟩ :=
    .of_follows ⟨rfl, rfl, id⟩ rfl
  have hleave : Passes u t := .of_follows (by rw [ht]; exact ⟨rfl, rfl, id⟩) (by rw [ht])
  obtain ⟨id, v, h, hscoped⟩ := inScope_places h fun c ha => Agrees.enter_nil ha c
  obtain ⟨_, w, hparameters, h⟩ := bind_ok h
  obtain ⟨body', v', hbody, h⟩ := bind_ok h
  cases h
  have hrawbody : ∀ st ∈ body, (Node.stmt st).Unresolved := fun st hst => by
    obtain ⟨before, after, rfl⟩ := List.append_of_mem hst
    exact (hraw.inner (.body rfl)).anywhere []
  have hbind := parameters_declare hparameters
  obtain ⟨hdeclares, hplaces⟩ := statements_places ih hrawbody hbody
  have hscope := hscoped (hbind.trans hdeclares)
  have hclean : t.state.Clean → v.state.Clean := fun hc => hscope.clean (hleave.clean hc)
  rw [hs']
  refine ⟨passes_visited (henter.trans (hscope.passes.trans hleave)), places_visited ?_ ?_, rfl⟩
  · intro hc K frames _ ha
    have hstart := Agrees.enter_nil (henter.agrees ((hscope.passes.trans hleave).clean hc) ha)
      (.function (.mk name parameters body'))
    exact ((hbind.trans hdeclares).agrees (hclean hc) (settled_new ..) hstart).head.distinct
  · intro hc K frames _ ha q hq
    have hentered := henter.agrees ((hscope.passes.trans hleave).clean hc) ha
    have hstart := Agrees.enter_nil hentered (.function (.mk name parameters body'))
    have hbound := hbind.agrees (hdeclares.clean (hclean hc)) (settled_new ..) hstart
    have hcloses := hscope.closes (hleave.clean hc) hentered _ (List.mem_singleton_self _) rfl
    cases hq with
    | part hm => cases hm
    | @body _ _ before after st hb =>
        have hst := hplaces before st after hb (hclean hc) (settled_new ..) hbound
        have hclosed := close_everywhere hst hscope.notes hcloses
        exact hclosed.mono fun _ hq => hq.mono hleave.notes

theorem method_succ (ih : LevelPlaces levels) {f f' : FunctionDecl}
    (hraw : (Node.function f).Unresolved)
    (h : Visiting.method (levels + 1) ids f s = .ok f' s') :
    Passes s s' ∧ Places ids s s' (.function f') := by
  obtain ⟨hpasses, hplaces, -⟩ := ih.functionBody hraw h
  exact ⟨hpasses, hplaces⟩

/-- The methods of a class, in the scope for their receivers. -/
theorem methods_places (ih : LevelPlaces levels) {methods fs : List FunctionDecl}
    (hraw : ∀ f ∈ methods, (Node.function f).Unresolved)
    (h : (inScope ids ["this"] (fun fs => fs.map .this) fun ids =>
      methods.mapM (Visiting.method levels ids)) s = .ok fs s') :
    Passes s s' ∧ ∀ f ∈ fs, s'.state.Clean → ∀ {K : List String} {frames : List Frame},
      s.state.Agrees K frames → Everywhere (Placed K s'.notes ids (frames.map Frame.construct))
        ⟨.receiver f :: frames, .function f⟩ := by
  obtain ⟨id, t, h, hscoped⟩ := inScope_places h fun c ha => ha.enter_single "this" c
  obtain ⟨hpasses, hplaces⟩ := mapM_places .function
    (fun f hf _ _ _ h => ih.method (hraw f hf) h) h
  have hscope := hscoped hpasses.declares
  refine ⟨hscope.passes, fun f hf hc K frames ha => ?_⟩
  have hstart := ha.enter_single "this" (.this f)
  have hcloses := hscope.closes hc ha (.this f) (List.mem_map_of_mem hf) rfl
  exact close_everywhere (hplaces f hf (hscope.clean hc) trivial hstart) hscope.notes hcloses

/-- The same with a scope for the superclass around them. -/
theorem inherited_places (ih : LevelPlaces levels) {methods fs : List FunctionDecl}
    (hraw : ∀ f ∈ methods, (Node.function f).Unresolved)
    (h : (inScope ids ["super"] (fun fs => [.super fs]) fun ids =>
      inScope ids ["this"] (fun fs => fs.map .this) fun ids =>
        methods.mapM (Visiting.method levels ids)) s = .ok fs s') :
    Passes s s' ∧ ∀ f ∈ fs, s'.state.Clean → ∀ {K : List String} {frames : List Frame},
      s.state.Agrees K frames → Everywhere (Placed K s'.notes ids (frames.map Frame.construct))
        ⟨.receiver f :: .parent fs :: frames, .function f⟩ := by
  obtain ⟨id, t, h, hscoped⟩ := inScope_places h fun c ha => ha.enter_single "super" c
  obtain ⟨hpasses, hplaces⟩ := methods_places ih hraw h
  have hscope := hscoped hpasses.declares
  refine ⟨hscope.passes, fun f hf hc K frames ha => ?_⟩
  have hstart := ha.enter_single "super" (.super fs)
  have hcloses := hscope.closes hc ha (.super fs) (List.mem_singleton_self _) rfl
  exact close_everywhere (hplaces f hf (hscope.clean hc) hstart) hscope.notes hcloses

/-- The superclass of a class, which is not the class itself, is read where the class is declared
already. -/
theorem superclass_places {use use' : NameUse} {name : String} {m : Mutability}
    (hraw : use.hops = none) (hne : use.name.lexeme ≠ name)
    (h : visit ids (fun use => .expr (.name use)) (quietly (Resolve.read use)) s = .ok use' s') :
    Passes s s' ∧ (s'.state.Clean → ∀ {K : List String} {frames : List Frame},
      s.state.Agrees K (declaring [(name, m)] frames) →
      Everywhere (Placed K s'.notes ids (frames.map Frame.construct))
        ⟨frames, .expr (.name use')⟩) := by
  obtain ⟨t, h, hs'⟩ := visit_ok h
  obtain ⟨hread, hnotes⟩ := quietly_ok h
  obtain ⟨hfollows, hname, hlexical⟩ := Resolve.read_ok hraw hread
  rw [hs']
  refine ⟨passes_visited (.of_follows hfollows hnotes), fun _ K frames ha => ?_⟩
  have hinside := hlexical K _ ha
  have houtside : use'.Lexical .read frames :=
    hinside.of_declaring (by rw [hname]; exact hne)
  have hlength : s.state.scopes.length = frames.length := by rw [ha.length, length_declaring]
  refine Everywhere.intro ⟨houtside, [], [], s.state.scopes, List.mem_cons_self .., hlength, rfl,
    .nil, fun use h hu hh => ?_⟩ fun q hq => by cases hq with | part hm => cases hm
  cases hu
  obtain ⟨f, hf, hknows⟩ := hinside.reads.found h hh
  exact ha.scope hf hknows

/-- Statements that declare nothing and have no more than parts inside. -/
theorem stmt_places (ids : List Nat) (st : Stmt) (hds : st.declares = []) (hst : Declares [] s t)
    (honly : ∀ {frames : List Frame} {q : Position}, Inner ⟨frames, .stmt st⟩ q →
      ∃ m ∈ st.parts, q = ⟨frames, m⟩)
    (hfits : ∀ {K : List String} {frames : List Frame}, Position.Fits K ⟨frames, .stmt st⟩)
    (hparts : t.state.Clean → ∀ {K : List String} {frames : List Frame}, Settled frames →
      s.state.Agrees K frames → ∀ m ∈ st.parts,
        Everywhere (Placed K t.notes ids (frames.map Frame.construct)) ⟨frames, m⟩) :
    Declares st.declares s ⟨t.state, .visited ids s.state.scopes (.stmt st) :: t.notes⟩ ∧
      Places ids s ⟨t.state, .visited ids s.state.scopes (.stmt st) :: t.notes⟩ (.stmt st) := by
  constructor
  · rw [hds]
    exact hst.trans (Passes.noting t _).declares
  · refine places_visited (fun _ _ _ _ _ => hfits) fun hc K frames hready ha q hq => ?_
    obtain ⟨m, hm, rfl⟩ := honly hq
    exact hparts hc hready ha m hm

/-- Statements that consist of expressions. -/
theorem stmt_places_of_exprs (ids : List Nat) (st : Stmt) (hds : st.declares = []) (hst : Passes s t)
    (honly : ∀ {frames : List Frame} {q : Position}, Inner ⟨frames, .stmt st⟩ q →
      ∃ m ∈ st.parts, q = ⟨frames, m⟩)
    (hfits : ∀ {K : List String} {frames : List Frame}, Position.Fits K ⟨frames, .stmt st⟩)
    (hparts : ∀ m ∈ st.parts, Places ids s t m) :
    Declares st.declares s ⟨t.state, .visited ids s.state.scopes (.stmt st) :: t.notes⟩ ∧
      Places ids s ⟨t.state, .visited ids s.state.scopes (.stmt st) :: t.notes⟩ (.stmt st) :=
  stmt_places ids st hds hst.declares honly hfits fun hc _ _ hready ha m hm =>
    hparts m hm hc (Node.Ready.part (n := .stmt st) hready hm) ha

theorem var_places (ih : LevelPlaces levels) {mutability : Mutability} {name : Token}
    {initial : Option Expr} {st' : Stmt}
    (hraw : (Node.stmt (.var mutability name initial)).Unresolved)
    (h : Visiting.statement (levels + 1) ids (.var mutability name initial) s = .ok st' s') :
    Declares st'.declares s s' ∧ st'.declares = [(name.lexeme, mutability)] ∧
      Places ids s s' (.stmt st') := by
  unfold Visiting.statement at h
  obtain ⟨t, h, hs'⟩ := visit_ok h
  obtain ⟨_, u, hdeclare, h⟩ := bind_ok h
  obtain ⟨initial', v, hinitial, h⟩ := bind_ok h
  obtain ⟨_, w, hdefine, h⟩ := bind_ok h
  cases h
  obtain ⟨hdeclare, hnotes⟩ := quietly_ok hdeclare
  obtain ⟨hdefine, hnotes'⟩ := quietly_ok hdefine
  have hu : u.state = s.state.declare name name.lexeme := (EStateM.Result.ok.inj hdeclare).2.symm
  have ht : t.state = (v.state.define name.lexeme).setMutability name.lexeme mutability :=
    (EStateM.Result.ok.inj hdefine).2.symm
  obtain ⟨huv, hplaces⟩ : Passes u v ∧ ∀ e ∈ initial', Places ids u v (.expr e) := by
    refine optional_places .expr (fun e he a e' b hinside => ?_) hinitial
    obtain ⟨c, hinside, hb⟩ := within_ok hinside
    cases he
    have hrawe : (Node.expr e).Unresolved := hraw.inner .initial
    obtain ⟨hac, hpc⟩ := ih.expression hrawe hinside
    have henter : Passes a ⟨if a.state.scopes.isEmpty then
        { a.state with initializing := a.state.initializing.insert name.lexeme } else a.state,
        a.notes⟩ := by
      by_cases hempty : a.state.scopes.isEmpty = true
      · simp only [hempty, if_true]
        exact .of_follows ⟨rfl, rfl, id⟩ rfl
      · simp only [hempty]
        exact .refl _
    have hleave : Passes c b := .of_follows (by rw [hb]; exact ⟨rfl, rfl, id⟩) (by rw [hb])
    exact ⟨henter.trans (hac.trans hleave),
      .before henter (hac.trans hleave).toExtends (hpc.after hleave.toExtends)⟩
  have hclean : t.state.Clean → v.state.Clean := fun hc => by
    rw [ht, clean_setMutability, clean_define] at hc
    exact hc
  have hvt : v.notes ⊆ t.notes := fun _ hv => hnotes' ▸ hv
  have hbegun : t.state.Clean → ∀ {K : List String} {frames : List Frame}, Settled frames →
      s.state.Agrees K frames → u.state.Agrees K (beginning name.lexeme frames) ∧
        (frames = [] → name.lexeme ∉ K) := by
    intro hc K frames hready ha
    have hcu := huv.clean (hclean hc)
    rw [hu] at hcu ⊢
    refine ⟨ha.declare hready hraw.here.1 hcu, fun he => ?_⟩
    subst he
    exact ha.declare_fresh hcu
  have hdeclares : Declares [(name.lexeme, mutability)] s t := by
    constructor
    · constructor
      · intro hc
        have hcu := huv.clean (hclean hc)
        rw [hu] at hcu
        exact clean_of_declare hcu
      · exact fun _ hv => hvt (huv.notes (hnotes ▸ hv))
    · intro hc K frames hready ha
      obtain ⟨hu', hnew⟩ := hbegun hc hready ha
      have hv' := huv.agrees (hclean hc) hu'
      rw [ht]
      exact hv'.define hready hnew mutability
  rw [hs']
  refine ⟨?_, rfl, places_visited (fun _ _ _ _ _ => trivial) ?_⟩
  · have hlast := hdeclares.trans
      (Passes.noting t (.visited ids s.state.scopes (.stmt (.var mutability name initial')))).declares
    exact hlast
  · intro hc K frames hready ha q hq
    cases hq with
    | part hm => cases hm
    | initial =>
        obtain ⟨hu', -⟩ := hbegun hc hready ha
        have hinside := hplaces _ rfl (hclean hc) trivial hu'
        rw [constructs_beginning] at hinside
        exact hinside.mono fun _ hq => hq.mono hvt

theorem block_places (ih : LevelPlaces levels) {body : List Stmt} {st' : Stmt}
    (hraw : (Node.stmt (.block body)).Unresolved)
    (h : Visiting.statement (levels + 1) ids (.block body) s = .ok st' s') :
    Declares st'.declares s s' ∧ st'.declares = [] ∧ Places ids s s' (.stmt st') := by
  unfold Visiting.statement at h
  obtain ⟨t, h, hs'⟩ := visit_ok h
  obtain ⟨body', u, hscope, h⟩ := bind_ok h
  cases h
  obtain ⟨id, v, h, hscoped⟩ := inScope_places hscope fun c ha => ha.enter_nil c
  have hrawbody : ∀ st ∈ body, (Node.stmt st).Unresolved := fun st hst => by
    obtain ⟨before, after, rfl⟩ := List.append_of_mem hst
    exact (hraw.inner .block).anywhere []
  obtain ⟨hdeclares, hplaces⟩ := statements_places ih hrawbody h
  have hclosed := hscoped hdeclares
  rw [hs']
  refine ⟨(passes_visited hclosed.passes).declares, rfl, places_visited ?_ ?_⟩
  · intro hc K frames _ ha
    have hinside := hdeclares.agrees (hclosed.clean hc) (settled_new ..)
      (ha.enter_nil (.block body'))
    exact hinside.head.distinct
  · intro hc K frames _ ha q hq
    have hstart := ha.enter_nil (.block body')
    have hcloses := hclosed.closes hc ha (.block body') (List.mem_singleton_self _) rfl
    cases hq with
    | part hm => cases hm
    | @block _ before after st =>
        have hst := hplaces before st after rfl (hclosed.clean hc) (settled_new ..) hstart
        exact close_everywhere hst hclosed.notes hcloses

theorem function_places (ih : LevelPlaces levels) {f : FunctionDecl} {st' : Stmt}
    (hraw : (Node.stmt (.function f)).Unresolved)
    (h : Visiting.statement (levels + 1) ids (.function f) s = .ok st' s') :
    Declares st'.declares s s' ∧ st'.declares = (Stmt.function f).declares ∧
      Places ids s s' (.stmt st') := by
  unfold Visiting.statement at h
  obtain ⟨t, h, hs'⟩ := visit_ok h
  obtain ⟨name, hname⟩ := Option.isSome_iff_exists.mp hraw.here.1.1
  simp only [hname] at h
  obtain ⟨_, u, hbind, h⟩ := bind_ok h
  obtain ⟨f', v, hbody, h⟩ := bind_ok h
  cases h
  have hrawf : (Node.function f).Unresolved := hraw.inner .declared
  obtain ⟨hut, hplaces, hname'⟩ := ih.functionBody hrawf hbody
  have hsame : (Stmt.function f').declares = (Stmt.function f).declares := by
    change [(f'.displayName, Mutability.variable)] = [(f.displayName, Mutability.variable)]
    unfold FunctionDecl.displayName
    rw [hname']
  have hdisplay : (Stmt.function f').declares = [(name.lexeme, .variable)] := by
    change [(f'.displayName, Mutability.variable)] = [(name.lexeme, Mutability.variable)]
    unfold FunctionDecl.displayName
    rw [hname', hname]
  have hsu := bind_declares hbind
  have hdeclares : Declares [(name.lexeme, .variable)] s t := hsu.trans hut.declares
  rw [hs']
  refine ⟨?_, hsame, places_visited (fun _ _ _ _ _ => trivial) ?_⟩
  · rw [hdisplay]
    exact hdeclares.trans (Passes.noting t _).declares
  · intro hc K frames hready ha q hq
    cases hq with
    | part hm => cases hm
    | declared =>
        have hu := hsu.agrees (hut.clean hc) hready ha
        have hinside := hplaces hc trivial hu
        rw [globally_variable, constructs_declaring] at hinside
        rw [hdisplay]
        exact hinside

theorem root_class_places (ih : LevelPlaces levels) {name : Token}
    {methods : List FunctionDecl} {st' : Stmt}
    (hraw : (Node.stmt (.class name none methods)).Unresolved)
    (h : Visiting.statement (levels + 1) ids (.class name none methods) s = .ok st' s') :
    Declares st'.declares s s' ∧ st'.declares = [(name.lexeme, .variable)] ∧
      Places ids s s' (.stmt st') := by
  unfold Visiting.statement at h
  obtain ⟨t, h, hs'⟩ := visit_ok h
  rw [hs']
  have hrawf : ∀ f ∈ methods, (Node.function f).Unresolved := fun f hf =>
    (hraw.inner (.method hf)).anywhere []
  obtain ⟨u, h, ht⟩ := within_ok h
  obtain ⟨_, v, hbind, h⟩ := bind_ok h
  obtain ⟨fs, w, hmethods, h⟩ := bind_ok h
  cases h
  have henter : Passes s ⟨{ s.state with classContext := .root }, s.notes⟩ :=
    .of_follows ⟨rfl, rfl, id⟩ rfl
  have hleave : Passes u t := .of_follows (by rw [ht]; exact ⟨rfl, rfl, id⟩) (by rw [ht])
  have hsv : Declares [(name.lexeme, .variable)] s v :=
    henter.declares.trans (bind_declares hbind)
  obtain ⟨hvu, hplaces⟩ := methods_places ih hrawf hmethods
  have hvt := hvu.trans hleave
  refine ⟨(hsv.trans hvt.declares).trans (Passes.noting t _).declares, rfl,
    places_visited (fun _ _ _ _ _ => trivial) ?_⟩
  intro hc K frames hready ha q hq
  have hv := hsv.agrees (hvt.clean hc) hready ha
  rw [globally_variable] at hv
  cases hq with
  | part hm => cases hm
  | method hf =>
      have hinside := hplaces _ hf (hleave.clean hc) hv
      rw [constructs_declaring] at hinside
      exact hinside.mono fun _ hq => hq.mono hleave.notes

theorem derived_class_places (ih : LevelPlaces levels) {name : Token} {use : NameUse}
    {methods : List FunctionDecl} {st' : Stmt}
    (hraw : (Node.stmt (.class name (some use) methods)).Unresolved)
    (h : Visiting.statement (levels + 1) ids (.class name (some use) methods) s = .ok st' s') :
    Declares st'.declares s s' ∧ st'.declares = [(name.lexeme, .variable)] ∧
      Places ids s s' (.stmt st') := by
  unfold Visiting.statement at h
  obtain ⟨t, h, hs'⟩ := visit_ok h
  rw [hs']
  have hrawf : ∀ f ∈ methods, (Node.function f).Unresolved := fun f hf =>
    (hraw.inner (.inherited hf)).anywhere []
  have hrawuse : (Node.expr (.name use)).Unresolved :=
    hraw.inner (.part (List.mem_singleton_self _))
  obtain ⟨u, h, ht⟩ := within_ok h
  obtain ⟨_, v, hbind, h⟩ := bind_ok h
  obtain ⟨_, w, hcheck, h⟩ := bind_ok h
  obtain ⟨use', x, hread, h⟩ := bind_ok h
  obtain ⟨fs, y, hmethods, h⟩ := bind_ok h
  cases h
  have henter : Passes s ⟨{ s.state with classContext := .derived }, s.notes⟩ :=
    .of_follows ⟨rfl, rfl, id⟩ rfl
  have hleave : Passes u t := .of_follows (by rw [ht]; exact ⟨rfl, rfl, id⟩) (by rw [ht])
  have hsv : Declares [(name.lexeme, .variable)] s v :=
    henter.declares.trans (bind_declares hbind)
  obtain ⟨hvw, hother⟩ : Passes v w ∧
      (w.state.Clean → use.name.lexeme ≠ name.lexeme) := by
    by_cases hself : use.name.lexeme = name.lexeme
    · simp only [hself, if_true] at hcheck
      obtain ⟨hvw, hdirty⟩ := quietly_reports hcheck
      exact ⟨hvw, fun hc => (hdirty hc).elim⟩
    · simp only [hself, if_false] at hcheck
      obtain ⟨hcheck, hnotes⟩ := quietly_ok hcheck
      have hstate := (EStateM.Result.ok.inj hcheck).2
      exact ⟨.of_follows (hstate ▸ .refl _) hnotes, fun _ => hself⟩
  obtain ⟨hxu, hplaces⟩ := inherited_places ih hrawf hmethods
  have hxt := hxu.trans hleave
  have hread' : w.state.Clean → _ := fun hc =>
    superclass_places (m := .variable) (hrawuse.here.2 use rfl) (hother hc) hread
  have hwx : Passes w x := by
    obtain ⟨_, hpass, hx⟩ := visit_ok hread
    rw [hx]
    exact passes_visited (quietly_passes hpass fun h =>
      (Resolve.read_ok (hrawuse.here.2 use rfl) h).1)
  have hsx : Declares [(name.lexeme, .variable)] s x :=
    hsv.trans (hvw.trans hwx).declares
  refine ⟨(hsx.trans hxt.declares).trans (Passes.noting t _).declares, rfl,
    places_visited (fun _ _ _ _ _ => trivial) ?_⟩
  intro hc K frames hready ha q hq
  have hcx := hxt.clean hc
  have hcw := hwx.clean hcx
  have hv := hsv.agrees (hvw.clean hcw) hready ha
  rw [globally_variable] at hv
  have hw := hvw.agrees hcw hv
  have hx := hwx.agrees hcx hw
  cases hq with
  | part hm =>
      cases hm with
      | head =>
          have hinside := (hread' hcw).2 hcx hw
          exact hinside.mono fun _ hq => hq.mono hxt.notes
      | tail _ hm => cases hm
  | inherited hf =>
      have hinside := hplaces _ hf (hleave.clean hc) hx
      rw [constructs_declaring] at hinside
      exact hinside.mono fun _ hq => hq.mono hleave.notes

theorem class_places (ih : LevelPlaces levels) {name : Token} {superclass : Option NameUse}
    {methods : List FunctionDecl} {st' : Stmt}
    (hraw : (Node.stmt (.class name superclass methods)).Unresolved)
    (h : Visiting.statement (levels + 1) ids (.class name superclass methods) s = .ok st' s') :
    Declares st'.declares s s' ∧ st'.declares = [(name.lexeme, .variable)] ∧
      Places ids s s' (.stmt st') := by
  cases superclass with
  | none => exact ih.root_class_places hraw h
  | some use => exact ih.derived_class_places hraw h

theorem import_places {keyword name : Token} {as : Option Token} {st' : Stmt}
    (h : Visiting.statement (levels + 1) ids (.importModule keyword name as) s = .ok st' s') :
    Declares st'.declares s s' ∧ st'.declares = (Stmt.importModule keyword name as).declares ∧
      Places ids s s' (.stmt st') := by
  unfold Visiting.statement at h
  obtain ⟨t, h, hs'⟩ := visit_ok h
  obtain ⟨_, u, hbind, h⟩ := bind_ok h
  cases h
  have hdeclares : Declares [(importBinding name as, .variable)] s t := by
    cases herror : importNameError? (importedModule name) as.isSome with
    | some error =>
        simp only [herror] at hbind
        obtain ⟨hsu, hdirty⟩ := quietly_reports hbind
        exact ⟨hsu.toExtends, fun hc => (hdirty hc).elim⟩
    | none =>
        simp only [herror] at hbind
        exact bind_declares hbind
  rw [hs']
  refine ⟨hdeclares.trans (Passes.noting t _).declares, rfl,
    places_visited (fun _ _ _ _ _ => trivial) ?_⟩
  intro _ K frames _ _ q hq
  cases hq with
  | part hm => cases hm

/-- Statements that declare nothing and are no blocks have no more than parts inside. -/
theorem inner_plain {st : Stmt} {frames : List Frame} {q : Position} (hds : st.declares = [])
    (hblock : ∀ body, st ≠ .block body) (hq : Inner ⟨frames, .stmt st⟩ q) :
    ∃ m ∈ st.parts, q = ⟨frames, m⟩ := by
  cases hq with
  | part hm => exact ⟨_, hm, rfl⟩
  | initial => cases hds
  | block => exact (hblock _ rfl).elim
  | declared => cases hds
  | method => cases hds
  | inherited => cases hds

theorem if_places (ih : LevelPlaces levels) {condition : Expr} {thenBranch : Stmt}
    {elseBranch : Option Stmt} {st' : Stmt}
    (hraw : (Node.stmt (.if condition thenBranch elseBranch)).Unresolved)
    (h : Visiting.statement (levels + 1) ids (.if condition thenBranch elseBranch) s = .ok st' s') :
    Declares st'.declares s s' ∧ st'.declares = [] ∧ Places ids s s' (.stmt st') := by
  unfold Visiting.statement at h
  obtain ⟨t, h, hs'⟩ := visit_ok h
  have hpart : ∀ m ∈ (Stmt.if condition thenBranch elseBranch).parts, m.Unresolved :=
    fun m hm => hraw.inner (.part hm)
  obtain ⟨condition', u, hcondition, h⟩ := bind_ok h
  obtain ⟨then', v, hthen, h⟩ := bind_ok h
  obtain ⟨else', w, helse, h⟩ := bind_ok h
  cases h
  obtain ⟨hsu, hpc⟩ := ih.expression (hpart _ (List.mem_cons_self ..)) hcondition
  obtain ⟨hds, hdselse⟩ := hraw.here.1
  obtain ⟨huv, hsame, hpt⟩ :=
    ih.statement (hpart _ (List.mem_cons_of_mem _ (List.mem_cons_self ..))) hthen
  rw [hds] at hsame
  rw [hsame] at huv
  obtain ⟨hvt, hpe⟩ : Declares [] v t ∧
      ∀ b ∈ else', b.declares = [] ∧ Places ids v t (.stmt b) := by
    cases elseBranch with
    | none =>
        cases helse
        exact ⟨(Passes.refl _).declares, fun _ hb => (Option.not_mem_none _ hb).elim⟩
    | some b =>
        obtain ⟨b', x, hb, helse⟩ := bind_ok helse
        cases helse
        obtain ⟨hd, hsame', hp⟩ := ih.statement (hpart _ (List.mem_cons_of_mem _
          (List.mem_cons_of_mem _ (List.mem_singleton_self _)))) hb
        rw [hdselse b rfl] at hsame'
        rw [hsame'] at hd
        exact ⟨hd, fun b'' hb'' => by
          cases hb''
          exact ⟨hsame', hp⟩⟩
  rw [hs']
  have hdone := stmt_places ids (.if condition' then' else') rfl
    ((hsu.declares.trans huv).trans hvt) (inner_plain rfl fun _ he => by cases he)
    ⟨hsame, fun b hb => (hpe b hb).1⟩ (fun hc K frames hready ha m hm => by
      have hcv := hvt.clean hc
      have hu := hsu.agrees (huv.clean hcv) ha
      have hv := huv.same hcv hready hu
      rcases List.mem_cons.mp hm with rfl | hm
      · exact (hpc.after (huv.toExtends.trans hvt.toExtends)) hc trivial ha
      · rcases List.mem_cons.mp hm with rfl | hm
        · exact (hpt.after hvt.toExtends) hc hready hu
        · obtain ⟨b, hb, rfl⟩ := List.mem_map.mp hm
          exact (hpe b (Option.mem_toList.mp hb)).2 hc hready hv)
  exact ⟨hdone.1, rfl, hdone.2⟩

theorem while_places (ih : LevelPlaces levels) {condition : Expr} {body : Stmt}
    {increment : Option Expr} {st' : Stmt}
    (hraw : (Node.stmt (.while condition body increment)).Unresolved)
    (h : Visiting.statement (levels + 1) ids (.while condition body increment) s = .ok st' s') :
    Declares st'.declares s s' ∧ st'.declares = [] ∧ Places ids s s' (.stmt st') := by
  unfold Visiting.statement at h
  obtain ⟨t, h, hs'⟩ := visit_ok h
  have hpart : ∀ m ∈ (Stmt.while condition body increment).parts, m.Unresolved :=
    fun m hm => hraw.inner (.part hm)
  obtain ⟨t', h, ht⟩ := within_ok h
  obtain ⟨condition', u, hcondition, h⟩ := bind_ok h
  obtain ⟨body', v, hbody, h⟩ := bind_ok h
  obtain ⟨increment', w, hincrement, h⟩ := bind_ok h
  cases h
  have henter : Passes s ⟨{ s.state with inLoop := true }, s.notes⟩ :=
    .of_follows ⟨rfl, rfl, id⟩ rfl
  have hleave : Passes t' t := .of_follows (by rw [ht]; exact ⟨rfl, rfl, id⟩) (by rw [ht])
  obtain ⟨hsu, hpc⟩ := ih.expression (hpart _ (List.mem_cons_self ..)) hcondition
  have hds : body.declares = [] := hraw.here.1
  obtain ⟨huv, hsame, hpb⟩ :=
    ih.statement (hpart _ (List.mem_cons_of_mem _ (List.mem_cons_self ..))) hbody
  rw [hds] at hsame
  rw [hsame] at huv
  have hrawi : ∀ e ∈ increment, (Node.expr e).Unresolved := fun e he =>
    hpart _ (List.mem_cons_of_mem _ (List.mem_cons_of_mem _
      (List.mem_map_of_mem (Option.mem_toList.mpr he))))
  obtain ⟨hvt', hpi⟩ := optional_places .expr
    (fun e he _ _ _ h => ih.expression (hrawi e he) h) hincrement
  have hsu' := henter.trans hsu
  have hvt := hvt'.trans hleave
  rw [hs']
  have hdone := stmt_places ids (.while condition' body' increment') rfl
    ((hsu'.declares.trans huv).trans hvt.declares) (inner_plain rfl fun _ he => by cases he)
    hsame (fun hc K frames hready ha m hm => by
      have hcv := hvt.clean hc
      have hu := hsu'.agrees (huv.clean hcv) ha
      have hv := huv.same hcv hready hu
      rcases List.mem_cons.mp hm with rfl | hm
      · have hplaces := Places.before henter hsu.toExtends hpc
        exact (hplaces.after (huv.toExtends.trans hvt.toExtends)) hc trivial ha
      · rcases List.mem_cons.mp hm with rfl | hm
        · exact (hpb.after hvt.toExtends) hc hready hu
        · obtain ⟨e, he, rfl⟩ := List.mem_map.mp hm
          exact ((hpi e (Option.mem_toList.mp he)).after hleave.toExtends) hc trivial hv)
  exact ⟨hdone.1, rfl, hdone.2⟩

theorem return_places (ih : LevelPlaces levels) {keyword : Token} {value : Option Expr} {st' : Stmt}
    (hraw : (Node.stmt (.return keyword value)).Unresolved)
    (h : Visiting.statement (levels + 1) ids (.return keyword value) s = .ok st' s') :
    Declares st'.declares s s' ∧ st'.declares = [] ∧ Places ids s s' (.stmt st') := by
  unfold Visiting.statement at h
  obtain ⟨t, h, hs'⟩ := visit_ok h
  have hpart : ∀ m ∈ (Stmt.return keyword value).parts, m.Unresolved :=
    fun m hm => hraw.inner (.part hm)
  obtain ⟨_, u, hcheck, h⟩ := bind_ok h
  obtain ⟨_, v, hcheck', h⟩ := bind_ok h
  obtain ⟨value', w, hvalue, h⟩ := bind_ok h
  cases h
  have hsu := quietly_passes hcheck Resolve.checkReturn_ok
  have huv := quietly_passes hcheck' fun h => (Resolve.check_ok
    (c := fun s => value.isSome = true ∧ s.function = .initializer) h).1
  have hrawv : ∀ e ∈ value, (Node.expr e).Unresolved := fun e he =>
    hpart _ (List.mem_map_of_mem (Option.mem_toList.mpr he))
  obtain ⟨hvt, hpv⟩ := optional_places .expr
    (fun e he _ _ _ h => ih.expression (hrawv e he) h) hvalue
  rw [hs']
  have hdone := stmt_places_of_exprs ids (.return keyword value') rfl
    ((hsu.trans huv).trans hvt) (inner_plain rfl fun _ he => by cases he) trivial fun m hm => by
      obtain ⟨e, he, rfl⟩ := List.mem_map.mp hm
      exact .before (hsu.trans huv) hvt.toExtends (hpv e (Option.mem_toList.mp he))
  exact ⟨hdone.1, rfl, hdone.2⟩

theorem statement_succ (ih : LevelPlaces levels) {st st' : Stmt}
    (hraw : (Node.stmt st).Unresolved)
    (h : Visiting.statement (levels + 1) ids st s = .ok st' s') :
    Declares st'.declares s s' ∧ st'.declares = st.declares ∧ Places ids s s' (.stmt st') := by
  have hall := h
  unfold Visiting.statement at h
  obtain ⟨t, h, hs'⟩ := visit_ok h
  have hpart : ∀ m ∈ st.parts, m.Unresolved := fun m hm => hraw.inner (.part hm)
  cases st with
  | expression e =>
      obtain ⟨e', u, he, h⟩ := bind_ok h
      cases h
      obtain ⟨hst, hplaces⟩ := ih.expression (hpart _ (List.mem_singleton_self _)) he
      rw [hs']
      have hdone := stmt_places_of_exprs ids (.expression e') rfl hst
        (inner_plain rfl fun _ he => by cases he) trivial (List.forall_mem_singleton.mpr hplaces)
      exact ⟨hdone.1, rfl, hdone.2⟩
  | print e =>
      obtain ⟨e', u, he, h⟩ := bind_ok h
      cases h
      obtain ⟨hst, hplaces⟩ := ih.expression (hpart _ (List.mem_singleton_self _)) he
      rw [hs']
      have hdone := stmt_places_of_exprs ids (.print e') rfl hst
        (inner_plain rfl fun _ he => by cases he) trivial (List.forall_mem_singleton.mpr hplaces)
      exact ⟨hdone.1, rfl, hdone.2⟩
  | var mutability name initial => exact ih.var_places hraw hall
  | block body => exact ih.block_places hraw hall
  | «if» condition thenBranch elseBranch => exact ih.if_places hraw hall
  | «while» condition body increment => exact ih.while_places hraw hall
  | «break» keyword =>
      obtain ⟨_, u, hcheck, h⟩ := bind_ok h
      cases h
      have hst := quietly_passes hcheck fun h =>
        (Resolve.check_ok (c := fun s => (!s.inLoop) = true) h).1
      rw [hs']
      have hdone := stmt_places_of_exprs ids (.break keyword) rfl hst
        (inner_plain rfl fun _ he => by cases he) trivial (List.forall_mem_nil _)
      exact ⟨hdone.1, rfl, hdone.2⟩
  | «continue» keyword =>
      obtain ⟨_, u, hcheck, h⟩ := bind_ok h
      cases h
      have hst := quietly_passes hcheck fun h =>
        (Resolve.check_ok (c := fun s => (!s.inLoop) = true) h).1
      rw [hs']
      have hdone := stmt_places_of_exprs ids (.continue keyword) rfl hst
        (inner_plain rfl fun _ he => by cases he) trivial (List.forall_mem_nil _)
      exact ⟨hdone.1, rfl, hdone.2⟩
  | «return» keyword value => exact ih.return_places hraw hall
  | function declaration => exact ih.function_places hraw hall
  | «class» name superclass methods => exact ih.class_places hraw hall
  | importModule keyword name as => exact import_places hall

end LevelPlaces

theorem places (levels : Nat) : LevelPlaces levels := by
  induction levels with
  | zero =>
      exact
        { expression := fun _ h => nomatch h
          statement := fun _ h => nomatch h
          method := fun _ h => nomatch h
          functionBody := fun _ h => nomatch h }
  | succ levels ih =>
      exact
        { expression := ih.expression_succ
          statement := ih.statement_succ
          method := ih.method_succ
          functionBody := ih.functionBody_succ }

end Visiting
end Treewalk
