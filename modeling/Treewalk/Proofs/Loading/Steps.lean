import Treewalk.Proofs.Loading.Invariant

/-!
# Loads step by step

A load starts, is completed or cut, or fails; whatever else happens leaves the loads alone. A
computation that ends well, or with a signal, has seen no load fail.
-/
namespace Treewalk

namespace Registry
variable {one : Prop} {loads : List Load} {l : Load} {s : Watched World LoadEvent} {e : LoadEvent}

/-- A load that is over is no longer going on. -/
theorem drop (h : Registry one (l :: loads) s) (hover : l.Over s.notes) : Registry one loads s := by
  constructor
  case supplied => exact h.supplied
  case single => exact h.single
  case holds => exact fun ho => (h.holds ho).tail
  case going => exact fun l' hl' => h.going l' (List.mem_cons_of_mem _ hl')
  case mentioned => exact h.mentioned
  case started => exact h.started
  case cached =>
    intro r p m hm
    rcases h.cached r p m hm with hl | hl
    · rcases List.mem_cons.mp hl with rfl | hl
      · exact .inr hover
      · exact .inl hl
    · exact .inr hl
  case told => exact h.told

/-- A load is completed or cut. -/
theorem settle (h : Registry one (l :: loads) s) {how : LoadEnd}
    (hfits : LoadEvent.Fits one s.notes (.ended l how)) (hover : l.Over [.ended l how]) :
    Registry one loads ⟨s.state, .ended l how :: s.notes⟩ := by
  have hnote := h.note hfits (fun l' hl' => Option.some.inj hl' ▸ h.going l (List.mem_cons_self ..))
    nofun
  exact hnote.drop (hover.mono (List.cons_subset_cons _ (List.nil_subset _)))

/-- A load fails, and its file is forgotten. -/
theorem fail (h : Registry one (l :: loads) s) (he : e.Fails l) :
    Registry one loads
      ⟨s.state.updateLoader l.loader fun c => c.forget l.place, e :: s.notes⟩ := by
  have hfits : e.Fits one s.notes := by cases he <;> trivial
  have hload : ∀ l', e.load? = some l' → l' = l := by
    intro l' hl'
    cases he <;> exact (Option.some.inj hl').symm
  have hgoing := h.going l (List.mem_cons_self ..)
  have hnote := h.note hfits (fun l' hl' => hload l' hl' ▸ hgoing) fun _ _ _ hst => by
    subst hst
    nomatch he
  -- The other loads are of other files, which stay registered.
  have hother : one → ∀ p, p ≠ l.place →
      ((s.state.updateLoader l.loader fun c => c.forget l.place).loaders.get ⟨0⟩).cached? p =
        (s.state.loaders.get ⟨0⟩).cached? p := by
    intro ho p hp
    rw [(h.holds ho).first l (List.mem_cons_self ..), s.state.get_updateLoader _ _ (h.supplied ho),
      if_pos rfl]
    exact Loader.cached?_forget_of_ne hp
  constructor
  case supplied => exact fun ho => Nat.lt_of_lt_of_eq (h.supplied ho) (Arena.size_set ..).symm
  case single => exact h.single
  case holds =>
    intro ho
    have hholds := h.holds ho
    exact hholds.tail.transfer (fun l' hl' => hother ho _ (hholds.place_ne hl')) fun _ _ hl' => hl'
  case going => exact fun l' hl' => h.going l' (List.mem_cons_of_mem _ hl')
  case mentioned => exact hnote.mentioned
  case started =>
    intro ho loads' l' w hst
    obtain ⟨hfirst, hl'⟩ := hnote.started ho loads' l' w hst
    refine ⟨hfirst, ?_⟩
    rcases hl' with hregistered | hfailed
    · by_cases hp : l'.place = l.place
      · -- What was registered at this place is the load that fails.
        have hsame := (h.holds ho).registered l (List.mem_cons_self ..)
        rw [← hp, hregistered] at hsame
        have hl : l' = l := by
          obtain ⟨r, p, m⟩ := l
          cases hfirst.trans ((h.holds ho).first _ (List.mem_cons_self ..)).symm
          cases hp
          cases hsame
          rfl
        exact .inr ⟨e, List.mem_cons_self .., hl ▸ he⟩
      · exact .inl ((hother ho _ hp).trans hregistered)
    · exact .inr hfailed
  case cached =>
    intro r p m hm
    obtain ⟨hbefore, hne⟩ := World.mem_cache_forget hm
    rcases hnote.cached r p m hbefore with hl | hl
    · rcases List.mem_cons.mp hl with rfl | hl
      · exact (hne rfl rfl).elim
      · exact .inl hl
    · exact .inr hl
  case told => exact hnote.told

/-- A file that is not registered is registered, and its load starts. -/
theorem start (h : Registry one loads s) (hstack : openLoads s.notes = loads)
    (hu : Unharmed s.notes) {r : Ref .loader} {p : RealPath}
    {w : World} (hfirst : one → r = ⟨0⟩) (hp : p ∈ s.state.files.places)
    (hnone : (s.state.loaders.get r).cached? p = none)
    (hhomes : ∀ home, (w.interpreters.get home).loader = (s.state.interpreters.get home).loader ∨
      (w.interpreters.get home).loader = r)
    (hmodules : w.modules.size = s.state.modules.size + 1)
    (hloaders : w.loaders =
      (s.state.updateLoader r fun c => c.register p s.state.modules.next).loaders)
    (hfiles : w.files = s.state.files) :
    Registry one (⟨r, p, s.state.modules.next⟩ :: loads)
      ⟨w, .started loads ⟨r, p, s.state.modules.next⟩ s.state :: s.notes⟩ := by
  have hsub : s.notes ⊆ .started loads ⟨r, p, s.state.modules.next⟩ s.state :: s.notes :=
    List.subset_cons_self ..
  have hcached : one → w.loaders.get ⟨0⟩ =
      (s.state.loaders.get ⟨0⟩).register p s.state.modules.next := by
    intro ho
    rw [hloaders, hfirst ho, s.state.get_updateLoader _ _ (h.supplied ho), if_pos rfl]
  have hgrown : s.state.modules.size < w.modules.size := by
    rw [hmodules]
    exact Nat.lt_succ_self _
  constructor
  case supplied =>
    intro ho
    rw [hloaders]
    exact Nat.lt_of_lt_of_eq (h.supplied ho) (Arena.size_set ..).symm
  case single => exact fun ho home => (hhomes home).elim (·.trans (h.single ho home)) (·.trans (hfirst ho))
  case holds =>
    intro ho
    rw [hfirst ho] at hnone
    exact (h.holds ho).cons (hfirst ho) hp hnone (hcached ho) hfiles
  case going =>
    exact List.forall_mem_cons.mpr ⟨hgrown, fun l' hl' => Nat.lt_trans (h.going l' hl') hgrown⟩
  case mentioned =>
    intro l' hl'
    rcases hl'.of_cons with hl' | hl'
    · cases hl'
      exact hgrown
    · exact Nat.lt_trans (h.mentioned l' hl') hgrown
  case started =>
    intro ho loads' l' w' hst
    rw [hcached ho]
    rcases List.mem_cons.mp hst with hst | hst
    · cases hst
      rw [hfirst ho] at hnone
      exact ⟨hfirst ho, .inl (Loader.cached?_register_self hnone)⟩
    · exact (h.started ho loads' l' w' hst).imp_right
        (.imp Loader.cached?_register_of_some (.mono · hsub))
  case cached =>
    intro r' p' m' hm
    rw [hloaders] at hm
    rcases World.mem_cache_register hm with hbefore | ⟨rfl, hnew⟩
    · exact (h.cached r' p' m' hbefore).imp (List.mem_cons_of_mem _) (.mono · hsub)
    · obtain ⟨rfl, rfl⟩ := Prod.mk.inj hnew
      exact .inl (List.mem_cons_self ..)
  case told =>
    refine .cons ⟨hstack.symm, fun ho => ?_⟩ h.told
    rw [hfirst ho] at hnone
    refine ⟨h.holds ho, hfirst ho, hnone, hp, hu, fun l' hl' hm => ?_, fun loads' l' w' hst hsame => ?_⟩
    · have hlt := h.mentioned l' hl'
      rw [hm] at hlt
      exact Nat.lt_irrefl _ hlt
    · refine (h.started ho loads' l' w' hst).2.resolve_left fun hregistered => ?_
      rw [hsame, hnone] at hregistered
      cases hregistered

end Registry

namespace InLoads
variable {one : Prop} {loads : List Load} {l : Load} {s : Watched World LoadEvent}

theorem settle (h : InLoads one (l :: loads) s) {how : LoadEnd}
    (hfits : LoadEvent.Fits one s.notes (.ended l how)) (hover : l.Over [.ended l how]) :
    InLoads one loads ⟨s.state, .ended l how :: s.notes⟩ :=
  ⟨h.toRegistry.settle hfits hover, congrArg List.tail h.stack⟩

theorem fail (h : InLoads one (l :: loads) s) {how : LoadEnd}
    (hfails : LoadEvent.Fails l (.ended l how)) :
    InLoads one loads
      ⟨s.state.updateLoader l.loader fun c => c.forget l.place, .ended l how :: s.notes⟩ :=
  ⟨h.toRegistry.fail hfails, congrArg List.tail h.stack⟩

end InLoads

/-! ### Computations in loads -/

/-- A state in which the loads are going on, and the executions of those to be kept are as in the
notes. -/
structure LoadsGo (one : Prop) (loads kept : List Load) (notes : List LoadEvent)
    (t : Watched World LoadEvent) : Prop where
  inLoads : InLoads one loads t
  executions : ∀ l ∈ kept, l.executions t.notes = l.executions notes

theorem InLoads.go {one : Prop} {loads kept : List Load} {s : Watched World LoadEvent}
    (h : InLoads one loads s) : LoadsGo one loads kept s.notes s := ⟨h, fun _ _ => rfl⟩

namespace Loading
variable {α β : Type} {one : Prop} {loads kept : List Load} {notes : List LoadEvent}

/-- What holds after a computation in loads. -/
def Leaves (one : Prop) (loads kept : List Load) (notes : List LoadEvent)
    (Q : Watched World LoadEvent → Prop) :
    EStateM.Result Interrupt (Watched World LoadEvent) α → Prop
  | .ok _ t => LoadsGo one loads kept notes t ∧ Unharmed t.notes ∧ Q t
  | .error (.signal _) t => LoadsGo one loads kept notes t ∧ Unharmed t.notes
  | .error _ t => LoadsGo one loads kept notes t

theorem Leaves.mono {Q : Watched World LoadEvent → Prop} {notes' : List LoadEvent}
    {r : EStateM.Result Interrupt (Watched World LoadEvent) α}
    (h : Leaves one loads kept notes Q r)
    (hn : ∀ l ∈ kept, l.executions notes = l.executions notes') :
    Leaves one loads kept notes' Q r := by
  have hgo : ∀ t, LoadsGo one loads kept notes t → LoadsGo one loads kept notes' t := fun t ht =>
    ⟨ht.inLoads, fun l hl => (ht.executions l hl).trans (hn l hl)⟩
  cases r with
  | ok a t => exact ⟨hgo t h.1, h.2⟩
  | error i t =>
      cases i with
      | signal c => exact ⟨hgo t h.1, h.2⟩
      | _ => exact hgo t h

/-- A computation that leaves the loads around it alone. -/
def Keeps (one : Prop) (loads : List Load) (p : Loading α) : Prop :=
  ∀ s, InLoads one loads s → Unharmed s.notes → Leaves one loads loads s.notes (fun _ => True) (p s)

namespace Keeps
variable {p : Loading α}

theorem pure (a : α) : Keeps one loads (Pure.pure a : Loading α) :=
  fun _ h hu => ⟨h.go, hu, trivial⟩

theorem throw (i : Interrupt) : Keeps one loads (MonadExcept.throw i : Loading α) := by
  intro s h hu
  cases i with
  | signal c => exact ⟨h.go, hu⟩
  | _ => exact h.go

theorem bind {f : α → Loading β} (hp : Keeps one loads p) (hf : ∀ a, Keeps one loads (f a)) :
    Keeps one loads (p >>= f) := by
  intro s h hu
  have hps := hp s h hu
  change Leaves one loads loads s.notes _ (EStateM.bind p f s)
  unfold EStateM.bind
  cases hr : p s with
  | ok a t =>
      rw [hr] at hps
      exact (hf a t hps.1.inLoads hps.2.1).mono hps.1.executions
  | error i t =>
      rw [hr] at hps
      cases i <;> exact hps

theorem map (hp : Keeps one loads p) (f : α → β) : Keeps one loads (f <$> p) :=
  hp.bind fun a => .pure (f a)

theorem looking {f : World → Loading α} (h : ∀ w, Keeps one loads (f w)) :
    Keeps one loads (Watched.look >>= f) := fun s => h s.state s

theorem quietly {q : Eval α} (hq : q.Indoors) : Keeps one loads (Watched.quietly q) := by
  intro s h hu
  have hqs := hq s.state
  unfold Watched.quietly
  cases hr : q s.state with
  | ok a w =>
      rw [hr] at hqs
      exact ⟨⟨h.sameUnits hqs, fun _ _ => rfl⟩, hu, trivial⟩
  | error i w =>
      rw [hr] at hqs
      have hgo : LoadsGo one loads loads s.notes ⟨w, s.notes⟩ :=
        ⟨h.sameUnits hqs, fun _ _ => rfl⟩
      cases i with
      | signal c => exact ⟨hgo, hu⟩
      | _ => exact hgo

theorem console {f : World → Console} :
    Keeps one loads (Watched.quietly (modify fun w => { w with console := f w })) :=
  quietly fun _ => ⟨rfl, rfl, rfl, rfl⟩

/-- A node is reached before a computation. -/
theorem reaching (hp : Keeps one loads p) : Keeps one loads (reach loads >>= fun _ => p) := by
  intro s h hu
  have hps := hp _ h.reached (.cons nofun hu)
  exact hps.mono fun l _ => l.executions_cons_of_ne nofun

theorem mapM {f : α → Loading β} (hf : ∀ a, Keeps one loads (f a)) (as : List α) :
    Keeps one loads (as.mapM f) := by
  induction as with
  | nil => exact .pure []
  | cons a as ih =>
      rw [List.mapM_cons]
      exact (hf a).bind fun b => ih.bind fun bs => .pure _

theorem forM {f : α → Loading Unit} (hf : ∀ a, Keeps one loads (f a)) (as : List α) :
    Keeps one loads (as.forM f) := by
  induction as with
  | nil => exact .pure ()
  | cons a as ih => exact (hf a).bind fun _ => ih

theorem round {p : Loading Unit} (hp : Keeps one loads p) : Keeps one loads (round p) := by
  intro s h hu
  have hps := hp s h hu
  unfold Loading.round
  cases hr : p s with
  | ok a t =>
      rw [hr] at hps
      exact hps
  | error i t =>
      rw [hr] at hps
      cases i with
      | signal c =>
          cases c with
          | «return» v => exact hps
          | «break» => exact ⟨hps.1, hps.2, trivial⟩
          | «continue» => exact ⟨hps.1, hps.2, trivial⟩
      | _ => exact hps

theorem loop {condition : Loading Bool} {body increment : Loading Unit}
    (hc : Keeps one loads condition) (hb : Keeps one loads body)
    (hi : Keeps one loads increment) (patience : Nat) :
    Keeps one loads (loop condition body increment patience) := by
  induction patience with
  | zero => exact .throw _
  | succ patience ih =>
      refine hc.bind fun go => ?_
      cases go with
      | false => exact .pure ()
      | true =>
          refine hb.round.bind fun go => ?_
          cases go with
          | false => exact .pure ()
          | true => exact hi.bind fun _ => ih

theorem returned {p : Loading Unit} (hp : Keeps one loads p) : Keeps one loads (returned p) := by
  intro s h hu
  have hps := hp s h hu
  unfold Loading.returned
  cases hr : p s with
  | ok a t =>
      rw [hr] at hps
      exact hps
  | error i t =>
      rw [hr] at hps
      cases i with
      | signal c =>
          cases c with
          | «return» v => exact ⟨hps.1, hps.2, trivial⟩
          | _ => exact hps
      | _ => exact hps

theorem atCall {paren : Token} (hp : Keeps one loads p) : Keeps one loads (atCall paren p) := by
  intro s h hu
  have hps := hp s h hu
  unfold Loading.atCall
  cases hr : p s with
  | ok a t =>
      rw [hr] at hps
      exact hps
  | error i t =>
      rw [hr] at hps
      cases i <;> exact hps

end Keeps
end Loading
end Treewalk
