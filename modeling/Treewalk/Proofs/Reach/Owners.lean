import Treewalk.Proofs.Reach.Runs
import Treewalk.Proofs.Run.Homes

/-!
# Loaders own what their interpreters make

Everything that is made in a session belongs to one loader: that of the interpreter in whose run it
was made. It leads only to what belongs to the same loader, so that each run goes on in a closed
region.
-/
namespace Treewalk

/-- A value that is no object. -/
def Thing.Plain : Thing → Prop
  | .scope _ => False
  | .value v => v.Plain

theorem World.Points.not_plain {w : World} {t t' : Thing} (h : w.Points t t') : ¬ t.Plain := by
  intro hplain
  cases h <;> exact hplain

namespace World

/-- What belongs to a loader. Values that are no objects belong to every loader. -/
def Region (w : World) (owner : Thing → Ref .loader) (loader : Ref .loader) (t : Thing) : Prop :=
  w.Has t ∧ (t.Plain ∨ owner t = loader)

/-- Things belong to loaders, and lead only to what belongs to the same one. -/
structure Owned (w : World) (owner : Thing → Ref .loader) : Prop where
  closed : ∀ loader, w.Closed loader (w.Region owner loader)
  homes : ∀ home : Ref .interpreter, home.index < w.interpreters.size →
    w.Region owner (w.interpreters.get home).loader (.scope (w.globals home))

/-- Who owns a thing if all that is new belongs to a loader. -/
noncomputable def ownerSince (w : World) (owner : Thing → Ref .loader) (loader : Ref .loader)
    (t : Thing) : Ref .loader :=
  open Classical in if w.Has t then owner t else loader

section
variable {w w' : World} {owner : Thing → Ref .loader} {L L' : Ref .loader} {t : Thing}

theorem ownerSince_of_has (h : w.Has t) : w.ownerSince owner L t = owner t := if_pos h

theorem ownerSince_of_new (h : ¬ w.Has t) : w.ownerSince owner L t = L := if_neg h

/-- The loader of a run owns its region and all that was made since. -/
theorem mine_eq_region (w w' : World) (owner : Thing → Ref .loader) (L : Ref .loader) :
    w'.Mine (w.Region owner L) w = w'.Region (w.ownerSince owner L) L := by
  funext t
  apply propext
  by_cases h : w.Has t
  · constructor
    · intro ht
      refine ⟨ht.1, ?_⟩
      rw [ownerSince_of_has h]
      exact (ht.2 h).2
    · intro ht
      refine ⟨ht.1, fun _ => ⟨h, ?_⟩⟩
      have howner : w.ownerSince owner L t = owner t := ownerSince_of_has h
      rw [← howner]
      exact ht.2
  · constructor
    · exact fun ht => ⟨ht.1, .inr (ownerSince_of_new h)⟩
    · exact fun ht => ⟨ht.1, fun hw => (h hw).elim⟩

theorem Region.grow (h : w.Region owner L' t) (hw : w.Extends w') :
    w'.Region (w.ownerSince owner L) L' t := by
  refine ⟨hw.has h.1, h.2.imp_right fun ho => ?_⟩
  rw [ownerSince_of_has h.1]
  exact ho

namespace Owned

/-- What belonged to another loader is as closed as before. -/
theorem closed_of_ne (h : w.Owned owner) (hf : Framed (w.Region owner L) w L w') (hne : L' ≠ L) :
    w'.Closed L' (w'.Region (w.ownerSince owner L) L') := by
  have hold : ∀ t, ¬ t.Plain → w'.Region (w.ownerSince owner L) L' t → w.Region owner L' t := by
    intro t hplain ht
    have ho := ht.2.resolve_left hplain
    by_cases hw : w.Has t
    · exact ⟨hw, .inr ((ownerSince_of_has hw).symm.trans ho)⟩
    · exact (hne (ho.symm.trans (ownerSince_of_new hw))).elim
  have hother : ∀ t, ¬ t.Plain → w.Region owner L' t → ¬ w.Region owner L t := fun t hplain ht ht' =>
    hne ((ht.2.resolve_left hplain).symm.trans (ht'.2.resolve_left hplain))
  have hhome : ∀ home, w.Homed L' (w.Region owner L') home →
      w'.Homed L' (w'.Region (w.ownerSince owner L) L') home := by
    intro home hh
    constructor
    case exists_ => exact Nat.lt_of_lt_of_le hh.exists_ hf.grown.interpreters
    case loader => exact (hf.grown.loader home hh.exists_).trans hh.loader
    case globals =>
      rw [hf.grown.globals home hh.exists_]
      exact hh.globals.grow hf.grown
  have hclosed := h.closed L'
  constructor
  case has => exact fun t ht => ht.1
  case plain => exact fun v hv => ⟨w'.has_plain hv, .inl hv⟩
  case points =>
    intro t t' ht hp
    have ht := hold t hp.not_plain ht
    have hothers := hother t hp.not_plain ht
    apply Region.grow _ hf.grown
    apply hclosed.points t t' ht
    cases t with
    | scope r => exact hp.of_scope (hf.scopes r ht.1 hothers)
    | value v =>
        cases v with
        | function r => exact hp.of_function (hf.grown.function r ht.1)
        | «class» r => exact hp.of_class (hf.grown.class r ht.1)
        | «instance» r => exact hp.of_instance (hf.instances r ht.1 hothers)
        | module r =>
            exact hp.of_module (hf.grown.module r ht.1)
              (hf.grown.globals _ (hclosed.modules r ht).exists_)
        | _ => cases hp
  case functions =>
    intro r hr
    have hr := hold _ id hr
    rw [hf.grown.function r hr.1]
    exact hhome _ (hclosed.functions r hr)
  case methods =>
    intro c x f hc hm
    have hc := hold _ id hc
    rw [hf.grown.class c hc.1] at hm
    exact hhome _ (hclosed.methods c x f hc hm)
  case modules =>
    intro m hm
    have hm := hold _ id hm
    rw [hf.grown.module m hm.1]
    exact hhome _ (hclosed.modules m hm)
  case cached =>
    intro p m hm
    rw [hf.caches L' hne] at hm
    exact (hclosed.cached p m hm).grow hf.grown

/-- A run in the region of a loader makes things that belong to this loader. -/
theorem since (h : w.Owned owner) (hf : Framed (w.Region owner L) w L w') :
    w'.Owned (w.ownerSince owner L) := by
  constructor
  case closed =>
    intro L'
    by_cases he : L' = L
    · rw [he, ← mine_eq_region]
      exact hf.closed
    · exact h.closed_of_ne hf he
  case homes =>
    intro home hlt
    rcases Nat.lt_or_ge home.index w.interpreters.size with hold | hnew
    · rw [hf.grown.globals home hold, hf.grown.loader home hold]
      exact (h.homes home hold).grow hf.grown
    · have hhome := hf.homes home hnew hlt
      rw [hhome.loader, ← mine_eq_region]
      exact hhome.globals

end Owned
end

/-- The things of a world belong to loaders. -/
def Separate (w : World) : Prop := ∃ owner, w.Owned owner

theorem Separate.start : ({} : World).Separate := by
  have hnone : ∀ t : Thing, ({} : World).Has t → t.Plain := by
    intro t ht
    cases t with
    | scope r => exact (Nat.not_lt_zero _ ht).elim
    | value v =>
        cases v with
        | clock | function | «class» | «instance» | module => exact (Nat.not_lt_zero _ ht).elim
        | _ => trivial
  refine ⟨fun _ => ⟨0⟩, ?_, fun home hlt => (Nat.not_lt_zero _ hlt).elim⟩
  intro L
  constructor
  case has => exact fun t ht => ht.1
  case plain => exact fun v hv => ⟨has_plain _ hv, .inl hv⟩
  case points => exact fun t t' ht hp => (hp.not_plain (hnone t ht.1)).elim
  case functions => exact fun r hr => (hnone _ hr.1).elim
  case methods => exact fun c _ _ hc => (hnone _ hc.1).elim
  case modules => exact fun m hm => (hnone _ hm.1).elim
  case cached => exact fun p m hm => nomatch hm

theorem Separate.change {w w' : World} (h : w.Separate) (L : Ref .loader)
    (hc : ∀ owner, w.Owned owner → Change (w.Region owner L) w L w w') : w'.Separate := by
  obtain ⟨owner, ho⟩ := h
  exact ⟨_, ho.since ((Framed.start (ho.closed L)).change (hc owner ho))⟩

end World

/-! ### Sessions -/

/-- The things belong to loaders, now and whenever something was noted of a node. -/
structure Apart (s : Watched World Event) : Prop where
  now : s.state.Separate
  noted : ∀ m site n w, .node m site n w ∈ s.notes → w.Separate

namespace Apart
variable {s : Watched World Event}

theorem change (h : Apart s) {w : World} (L : Ref .loader)
    (hc : ∀ owner, s.state.Owned owner → Change (s.state.Region owner L) s.state L s.state w) :
    Apart { s with state := w } :=
  ⟨h.now.change L hc, h.noted⟩

theorem things (h : Apart s) {w : World} (hw : s.state.SameThings w) :
    Apart { s with state := w } :=
  h.change ⟨0⟩ fun _ _ => .things hw

/-- A run goes on in the region of a loader. -/
theorem went (h : Apart s) {owner : Thing → Ref .loader} {L : Ref .loader}
    {t : Watched World Event} (ho : s.state.Owned owner)
    (ht : Went (s.state.Region owner L) s.state L s t) : Apart t := by
  refine ⟨⟨_, ho.since ht.framed⟩, fun m site n w hn => ?_⟩
  rcases ht.noted m site n w hn with hold | hnew
  · exact h.noted m site n w hold
  · exact ⟨_, ho.since hnew⟩

/-- A unit runs in the region of the loader of its interpreter. -/
theorem executeText (h : Apart s) {home : Ref .interpreter} (text : UnitText)
    (hhome : home.index < s.state.interpreters.size) :
    Apart (Watching.executeText home text s).2 := by
  obtain ⟨owner, ho⟩ := h.now
  have hframed := Framed.start (ho.closed (s.state.interpreters.get home).loader)
  have hhomed : s.state.Homed (s.state.interpreters.get home).loader
      (s.state.Mine (s.state.Region owner (s.state.interpreters.get home).loader) s.state) home :=
    ⟨hhome, rfl, (ho.homes home hhome).1, fun _ => ho.homes home hhome⟩
  have hrun := Watching.execute_contained
    (levelContained _ _ _ grantedRounds (nestingLimit / 2)).statement hframed hhomed text
  unfold Contained at hrun
  unfold Watching.executeText
  cases hr : Watching.execute (Watching.statement grantedRounds (nestingLimit / 2)) home text s with
  | ok completion t =>
      rw [hr] at hrun
      exact h.went ho hrun.1
  | error i t =>
      rw [hr] at hrun
      cases i <;> exact h.went ho hrun.1

end Apart

theorem SessionStep.watch_apart {s : Watched World Event} (step : SessionStep) (h : Apart s) :
    Apart (step.watch s).2 := by
  cases step with
  | addLoader searchPaths =>
      exact h.things ⟨rfl, rfl, rfl, rfl, rfl, rfl, fun _ => rfl, fun _ => rfl,
        s.state.caches_addLoader searchPaths⟩
  | addInterpreter unit loader =>
      exact h.change loader fun owner ho => .addInterpreter (.start (ho.closed loader)) unit
  | compile home file source =>
      exact h.things (s.state.sameObjects_compile nestingLimit home file source).things
  | run home file source =>
      unfold watch
      by_cases hhome : home.index < s.state.interpreters.size
      · simp only [hhome, if_true]
        have hsame := s.state.sameObjects_compile nestingLimit home file source
        have hhome' := Nat.lt_of_lt_of_eq hhome hsame.size.symm
        exact (h.things hsame.things).executeText _ hhome'
      · simp only [hhome, if_false]
        exact h
  | execute home text =>
      unfold watch
      by_cases hhome : home.index < s.state.interpreters.size
      · simp only [hhome, if_true]
        exact h.executeText text hhome
      · simp only [hhome, if_false]
        exact h
  | resetReporter home =>
      exact h.things (s.state.sameObjects_updateInterpreter home
        (f := fun i => { i with reporter := i.reporter.reset }) fun _ => ⟨rfl, rfl⟩).things
  | arrange files workingDirectory console now =>
      exact h.things ⟨rfl, rfl, rfl, rfl, rfl, rfl, fun _ => rfl, fun _ => rfl, fun _ => rfl⟩

theorem Session.watch_apart (steps : List SessionStep) : Apart (Session.watch steps) := by
  exact Session.watch_induction ⟨.start, fun _ _ _ _ hn => nomatch hn⟩
    fun s h step _ => step.watch_apart h

end Treewalk
