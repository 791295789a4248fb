import Treewalk.Proofs.Scopes.Lookup

/-!
# Following name resolution

Name resolution takes no error back and no note; a piece of it leaves the open scopes as they were, or
declares names in the innermost one. A scope that is opened and closed again leaves nothing behind
but notes, and what was resolved in it stays resolved.
-/
namespace Treewalk

namespace Visiting
open Watched Scoping
variable {α β : Type} {s s' t u : Watched Scoping Visit} {ids : List Nat}

/-- No error is taken back and no note. -/
structure Extends (s s' : Watched Scoping Visit) : Prop where
  clean : s'.state.Clean → s.state.Clean
  notes : s.notes ⊆ s'.notes

/-- The open scopes are what they were. -/
structure Passes (s s' : Watched Scoping Visit) : Prop extends Extends s s' where
  agrees : s'.state.Clean → ∀ {K : List String} {frames : List Frame},
    s.state.Agrees K frames → s'.state.Agrees K frames

/-- Something was declared in the innermost scope. -/
structure Declares (ds : List (String × Mutability)) (s s' : Watched Scoping Visit) : Prop
    extends Extends s s' where
  agrees : s'.state.Clean → ∀ {K : List String} {frames : List Frame}, Settled frames →
    s.state.Agrees K frames → s'.state.Agrees (globally K ds frames) (declaring ds frames)

/-- A node is resolved, whatever frames the open scopes agree with. -/
def Places (ids : List Nat) (s s' : Watched Scoping Visit) (n : Node) : Prop :=
  s'.state.Clean → ∀ {K : List String} {frames : List Frame}, n.Ready frames →
    s.state.Agrees K frames →
    Everywhere (Placed K s'.notes ids (frames.map Frame.construct)) ⟨frames, n⟩

theorem Extends.trans (h : Extends s t) (h' : Extends t u) : Extends s u :=
  ⟨fun hc => h.clean (h'.clean hc), fun _ hv => h'.notes (h.notes hv)⟩

namespace Passes

theorem refl (s : Watched Scoping Visit) : Passes s s := ⟨⟨id, fun _ h => h⟩, fun _ _ _ h => h⟩

theorem trans (h : Passes s t) (h' : Passes t u) : Passes s u :=
  ⟨h.toExtends.trans h'.toExtends, fun hc _ _ ha => h'.agrees hc (h.agrees (h'.clean hc) ha)⟩

theorem of_follows (h : s.state.Follows s'.state) (hn : s'.notes = s.notes) : Passes s s' :=
  ⟨⟨h.clean, fun _ hv => hn ▸ hv⟩, fun _ _ _ ha => ha.of_eq h.scopes h.constants⟩

theorem noting (s : Watched Scoping Visit) (v : Visit) : Passes s ⟨s.state, v :: s.notes⟩ :=
  ⟨⟨id, fun _ h => List.mem_cons_of_mem v h⟩, fun _ _ _ h => h⟩

theorem declares (h : Passes s s') : Declares [] s s' :=
  ⟨h.toExtends, fun hc K frames _ ha => by
    rw [globally_nil, declaring_nil]
    exact h.agrees hc ha⟩

end Passes

namespace Declares
variable {ds ds' : List (String × Mutability)}

theorem trans (h : Declares ds s t) (h' : Declares ds' t u) : Declares (ds ++ ds') s u :=
  ⟨h.toExtends.trans h'.toExtends, fun hc K frames hready ha => by
    have ht := h.agrees (h'.clean hc) hready ha
    have hu := h'.agrees hc (hready.declaring ds) ht
    rw [globally_append, declaring_append] at hu
    exact hu⟩

/-- Nothing was declared. -/
theorem same (h : Declares [] s t) (hc : t.state.Clean) {K : List String} {frames : List Frame}
    (hready : Settled frames) (ha : s.state.Agrees K frames) : t.state.Agrees K frames := by
  have ht := h.agrees hc hready ha
  rw [globally_nil, declaring_nil] at ht
  exact ht

end Declares

namespace Places
variable {n : Node}

theorem after (h : Places ids s t n) (htu : Extends t u) : Places ids s u n := by
  intro hc K frames hready ha
  exact (h (htu.clean hc) hready ha).mono fun _ hq => hq.mono htu.notes

theorem before (hst : Passes s t) (htu : Extends t u) (h : Places ids t u n) :
    Places ids s u n := by
  intro hc K frames hready ha
  exact h hc hready (hst.agrees (htu.clean hc) ha)

end Places

/-! ### Steps -/

theorem quietly_passes {p : Resolve α} {a : α} (h : quietly p s = .ok a s')
    (hp : ∀ {s'}, p s.state = .ok a s' → s.state.Follows s') : Passes s s' := by
  obtain ⟨h, hn⟩ := quietly_ok h
  exact .of_follows (hp h) hn

theorem quietly_reports {token : Token} {error : StaticError} {v : Unit}
    (h : quietly (Resolve.report token error) s = .ok v s') :
    Passes s s' ∧ ¬ s'.state.Clean := by
  obtain ⟨h, hn⟩ := quietly_ok h
  have hstate := Resolve.report_ok h
  refine ⟨.of_follows (hstate ▸ follows_report _ _ _) hn, ?_⟩
  rw [hstate]
  exact not_clean_report _ _ _

theorem visit_ok {node : α → Node} {p : Visiting α} {a : α} (h : visit ids node p s = .ok a s') :
    ∃ t, p s = .ok a t ∧ s' = ⟨t.state, .visited ids s.state.scopes (node a) :: t.notes⟩ := by
  unfold visit at h
  obtain ⟨_, _, hlook, h⟩ := bind_ok h
  cases hlook
  obtain ⟨b, t, hp, h⟩ := bind_ok h
  cases h
  exact ⟨t, hp, rfl⟩

theorem within_ok {enter : Scoping → Scoping} {leave : Scoping → Scoping → Scoping}
    {p : Visiting α} {a : α} (h : within enter leave p s = .ok a s') :
    ∃ t, p ⟨enter s.state, s.notes⟩ = .ok a t ∧ s' = ⟨leave s.state t.state, t.notes⟩ := by
  unfold within at h
  obtain ⟨_, _, hlook, h⟩ := bind_ok h
  cases hlook
  obtain ⟨_, _, henter, h⟩ := bind_ok h
  cases henter
  obtain ⟨b, t, hp, h⟩ := bind_ok h
  cases h
  exact ⟨t, hp, rfl⟩

theorem closing_ok {id : Nat} {scope : StaticScope} (cs : List Construct) {v : Unit}
    (h : (cs.forM fun c => note (.closed id c scope) : Visiting Unit) s = .ok v s') :
    s'.state = s.state ∧ s.notes ⊆ s'.notes ∧ ∀ c ∈ cs, .closed id c scope ∈ s'.notes := by
  induction cs generalizing s with
  | nil =>
      cases h
      exact ⟨rfl, fun _ hv => hv, fun _ hc => nomatch hc⟩
  | cons c cs ih =>
      obtain ⟨hstate, hnotes, hclosed⟩ := ih (s := ⟨s.state, .closed id c scope :: s.notes⟩) h
      refine ⟨hstate, fun _ hv => hnotes (List.mem_cons_of_mem _ hv), fun c' hc' => ?_⟩
      rcases List.mem_cons.mp hc' with rfl | hc'
      · exact hnotes (List.mem_cons_self ..)
      · exact hclosed c' hc'

/-- The notes of a scope's inside are kept, and the scope is closed for all its constructs. -/
theorem inScope_ok {names : List String} {constructs : α → List Construct}
    {p : List Nat → Visiting α} {a : α} (h : inScope ids names constructs p s = .ok a s') :
    ∃ id t, p (id :: ids) ⟨s.state.enter names, .opened :: s.notes⟩ = .ok a t ∧
      s'.state = t.state.leave ∧ t.notes ⊆ s'.notes ∧
      ∀ c ∈ constructs a, .closed id c (t.state.scopes.headD {}) ∈ s'.notes := by
  unfold inScope at h
  obtain ⟨id, _, hfresh, h⟩ := bind_ok h
  cases hfresh
  obtain ⟨_, _, henter, h⟩ := bind_ok h
  cases henter
  obtain ⟨b, t, hp, h⟩ := bind_ok h
  obtain ⟨_, _, hlook, h⟩ := bind_ok h
  cases hlook
  obtain ⟨_, u, hclose, h⟩ := bind_ok h
  obtain ⟨hstate, hnotes, hclosed⟩ := closing_ok _ hclose
  cases h
  exact ⟨_, t, hp, by rw [hstate], hnotes, hclosed⟩

/-- A scope is closed with all that its construct declares. -/
theorem closes_of_agrees {K : List String} {f : Frame} {frames : List Frame} {c : Construct}
    {notes : List Visit} {id : Nat} (ha : t.state.Agrees K (f :: frames)) (hb : f.bound = c.declares)
    (hnote : .closed id c (t.state.scopes.headD {}) ∈ notes) : Closes notes id c := by
  refine ⟨_, hnote, fun x hx => ?_⟩
  rw [← hb] at hx
  exact (ha.head.contains_iff x).mpr (.inl hx)

/-- What a scope leaves behind: `t` is the state before it is closed, with what it had from the start
and what was declared in it. -/
structure Scoped (s s' t : Watched Scoping Visit) (id : Nat)
    (start ds : List (String × Mutability)) (constructs : List Construct) : Prop where
  passes : Passes s s'
  clean : s'.state.Clean → t.state.Clean
  notes : t.notes ⊆ s'.notes
  closes : s'.state.Clean → ∀ {K : List String} {frames : List Frame}, s.state.Agrees K frames →
    ∀ c ∈ constructs, c.declares = start ++ ds → Closes s'.notes id c

/-- A scope is closed with all that was declared in it. -/
theorem inScope_places {names : List String} {constructs : α → List Construct}
    {p : List Nat → Visiting α} {a : α} (h : inScope ids names constructs p s = .ok a s')
    {start : List (String × Mutability)}
    (henter : ∀ {K : List String} {frames : List Frame} (c : Construct), s.state.Agrees K frames →
      (s.state.enter names).Agrees K (⟨c, start, none⟩ :: frames)) :
    ∃ id t, p (id :: ids) ⟨s.state.enter names, .opened :: s.notes⟩ = .ok a t ∧
      ∀ {ds : List (String × Mutability)},
        Declares ds ⟨s.state.enter names, .opened :: s.notes⟩ t →
        Scoped s s' t id start ds (constructs a) := by
  obtain ⟨id, t, h, hstate, hnotes, hclosed⟩ := inScope_ok h
  refine ⟨id, t, h, fun {ds} hds => ?_⟩
  have hclean : s'.state.Clean → t.state.Clean := fun hc => by
    rw [hstate] at hc
    exact hc
  have hinside : s'.state.Clean → ∀ {K : List String} {frames : List Frame} (c : Construct),
      s.state.Agrees K frames → t.state.Agrees K (⟨c, start ++ ds, none⟩ :: frames) :=
    fun hc _ _ c ha => hds.agrees (hclean hc) (settled_new ..) (henter c ha)
  constructor
  case passes =>
    constructor
    · constructor
      · exact fun hc => hds.clean (hclean hc)
      · exact fun _ hv => hnotes (hds.notes (List.mem_cons_of_mem _ hv))
    · intro hc K frames ha
      rw [hstate]
      exact (hinside hc (.block []) ha).leave
  case clean => exact hclean
  case notes => exact hnotes
  case closes =>
    intro hc K frames ha c hmem hdeclares
    exact closes_of_agrees (hinside hc c ha) hdeclares.symm (hclosed c hmem)

/-- What was resolved in a scope stays so when it is closed. -/
theorem close_everywhere {K : List String} {notes notes' : List Visit} {id : Nat} {c : Construct}
    {outer : List Construct} {q : Position}
    (h : Everywhere (Placed K notes (id :: ids) (c :: outer)) q) (hn : notes ⊆ notes')
    (hc : Closes notes' id c) : Everywhere (Placed K notes' ids outer) q :=
  h.mono fun _ hq => (hq.mono hn).close hc

/-- A node whose parts are resolved is resolved once it is visited. -/
theorem places_visited {n : Node}
    (hfits : t.state.Clean → ∀ {K : List String} {frames : List Frame}, n.Ready frames →
      s.state.Agrees K frames → Position.Fits K ⟨frames, n⟩)
    (hinner : t.state.Clean → ∀ {K : List String} {frames : List Frame}, n.Ready frames →
      s.state.Agrees K frames → ∀ q, Inner ⟨frames, n⟩ q →
      Everywhere (Placed K t.notes ids (frames.map Frame.construct)) q) :
    Places ids s ⟨t.state, .visited ids s.state.scopes n :: t.notes⟩ n := by
  intro hc K frames hready ha
  have hf := hfits hc hready ha
  refine Everywhere.intro ⟨hf, [], [], s.state.scopes, List.mem_cons_self .., ha.length, rfl, .nil,
    fun use h hu hh => ?_⟩ fun q hq => ?_
  · obtain ⟨f, hframe, hknows⟩ := hf.found hu h hh
    exact ha.scope hframe hknows
  · exact (hinner hc hready ha q hq).mono fun _ hq => hq.mono fun _ hv => List.mem_cons_of_mem _ hv

/-- The same for nodes that have no more than parts inside. -/
theorem places_parts {n : Node} (hparts : ∀ m ∈ n.parts, Places ids s t m)
    (honly : ∀ {frames : List Frame} {q : Position}, Inner ⟨frames, n⟩ q →
      ∃ m ∈ n.parts, q = ⟨frames, m⟩)
    (hfits : t.state.Clean → ∀ {K : List String} {frames : List Frame}, n.Ready frames →
      s.state.Agrees K frames → Position.Fits K ⟨frames, n⟩) :
    Places ids s ⟨t.state, .visited ids s.state.scopes n :: t.notes⟩ n := by
  refine places_visited hfits fun hc K frames hready ha q hq => ?_
  obtain ⟨m, hm, rfl⟩ := honly hq
  exact hparts m hm hc (hready.part hm) ha

theorem passes_visited {n : Node} (h : Passes s t) :
    Passes s ⟨t.state, .visited ids s.state.scopes n :: t.notes⟩ := h.trans (.noting t _)

/-- Expressions have no more than parts inside. -/
theorem places_expr {e : Expr} (hst : Passes s t) (hparts : ∀ m ∈ e.parts, Places ids s t m)
    (hfits : t.state.Clean → ∀ {K : List String} {frames : List Frame},
      s.state.Agrees K frames → Position.Fits K ⟨frames, .expr e⟩) :
    Passes s ⟨t.state, .visited ids s.state.scopes (.expr e) :: t.notes⟩ ∧
      Places ids s ⟨t.state, .visited ids s.state.scopes (.expr e) :: t.notes⟩ (.expr e) := by
  refine ⟨passes_visited hst, places_parts hparts ?_ fun hc _ _ _ ha => hfits hc ha⟩
  rintro frames q ⟨hm⟩
  exact ⟨_, by assumption, rfl⟩

/-- Resolved one after the other. -/
theorem mapM_places (node : β → Node) {f : α → Visiting β} {as : List α} {bs : List β}
    (hf : ∀ a ∈ as, ∀ {s b s'}, f a s = .ok b s' → Passes s s' ∧ Places ids s s' (node b))
    (h : as.mapM f s = .ok bs s') : Passes s s' ∧ ∀ b ∈ bs, Places ids s s' (node b) := by
  induction as generalizing s bs with
  | nil =>
      cases h
      exact ⟨.refl _, fun _ hb => nomatch hb⟩
  | cons a as ih =>
      rw [List.mapM_cons] at h
      obtain ⟨b, t, ha, h⟩ := bind_ok h
      obtain ⟨bs', u, has, h⟩ := bind_ok h
      cases h
      obtain ⟨hst, hb⟩ := hf a (List.mem_cons_self ..) ha
      obtain ⟨htu, hbs⟩ := ih (fun a ha => hf a (List.mem_cons_of_mem _ ha)) has
      refine ⟨hst.trans htu, fun b' hb' => ?_⟩
      rcases List.mem_cons.mp hb' with rfl | hb'
      · exact hb.after htu.toExtends
      · exact .before hst htu.toExtends (hbs b' hb')

theorem optional_places (node : β → Node) {f : α → Visiting β} {o : Option α} {o' : Option β}
    (hf : ∀ a ∈ o, ∀ {s b s'}, f a s = .ok b s' → Passes s s' ∧ Places ids s s' (node b))
    (h : o.mapM f s = .ok o' s') : Passes s s' ∧ ∀ b ∈ o', Places ids s s' (node b) := by
  cases o with
  | none =>
      cases h
      exact ⟨.refl _, fun _ hb => nomatch hb⟩
  | some a =>
      obtain ⟨b, t, ha, h⟩ := bind_ok h
      cases h
      obtain ⟨hst, hb⟩ := hf a rfl ha
      refine ⟨hst, fun b' hb' => ?_⟩
      cases hb'
      exact hb

end Visiting
end Treewalk
