import Treewalk.Proofs.Scopes.Units

/-!
# What name resolution reports

The static errors of some kinds that name resolution reports, in order. A piece of it that starts
from certain states reports certain errors of those kinds and ends in certain states; where nesting
goes beyond the limit it stops, with the first of those errors reported.
-/
namespace Treewalk

/-- The static errors of some kinds among notices. -/
def errorsOf (kinds : StaticError → Bool) (notices : List Notice) : List Diagnostic :=
  notices.filterMap fun
    | .error d => if kinds d.error then some d else none
    | .log _ => none

theorem errorsOf_append (kinds : StaticError → Bool) (first second : List Notice) :
    errorsOf kinds (first ++ second) = errorsOf kinds first ++ errorsOf kinds second :=
  List.filterMap_append

theorem errorsOf_error {kinds : StaticError → Bool} {d : Diagnostic} (h : kinds d.error = true) :
    errorsOf kinds [.error d] = [d] := by simp [errorsOf, h]

theorem errorsOf_other {kinds : StaticError → Bool} {d : Diagnostic} (h : kinds d.error = false) :
    errorsOf kinds [.error d] = [] := by simp [errorsOf, h]

/-- A unit without static errors has none of any kind. -/
theorem errorsOf_nil {kinds : StaticError → Bool} {notices : List Notice}
    (h : countErrors notices = 0) : errorsOf kinds notices = [] := by
  unfold errorsOf
  rw [List.filterMap_eq_nil_iff]
  intro notice hnotice
  cases notice with
  | log l => rfl
  | error d => exact (List.countP_eq_zero.mp h _ hnotice rfl).elim

namespace Scoping

/-- The errors of some kinds so far. -/
def reported (kinds : StaticError → Bool) (s : Scoping) : List Diagnostic :=
  errorsOf kinds s.notices.toList

theorem reported_congr {kinds : StaticError → Bool} {s t : Scoping} (h : t.notices = s.notices) :
    t.reported kinds = s.reported kinds := by
  unfold reported
  rw [h]

section
variable {kinds : StaticError → Bool} (s : Scoping)

theorem reported_other (token : Token) {error : StaticError} (h : kinds error = false) :
    (s.report token error).reported kinds = s.reported kinds := by
  unfold reported report
  rw [Array.toList_push, errorsOf_append, errorsOf_other h, List.append_nil]

theorem reported_declare (h : kinds .constantRedeclared = false)
    (h' : kinds .variableRedeclared = false) (token : Token) (name : String) :
    (s.declare token name).reported kinds = s.reported kinds := by
  unfold declare
  split
  · split
    · exact s.reported_other token h
    · rfl
  · split
    · exact s.reported_other token h'
    · rfl

theorem reported_define (name : String) : (s.define name).reported kinds = s.reported kinds := by
  unfold define
  split <;> rfl

theorem reported_setMutability (name : String) (mutability : Mutability) :
    (s.setMutability name mutability).reported kinds = s.reported kinds := by
  unfold setMutability
  dsimp only
  split <;> rfl

end

/-- Something that does not depend on what has been reported and recorded so far. -/
def Steady (P : Scoping → Prop) : Prop :=
  ∀ s resolutions notices, P s → P { s with resolutions := resolutions, notices := notices }

end Scoping

namespace Resolve
variable {kinds : StaticError → Bool} {α β : Type} {P Q R : Scoping → Prop}
  {ds ds' : List Diagnostic} {token : Token} {error : StaticError}

/-- From where `P` holds to where `Q` holds, with these errors of the given kinds. -/
def Tells (kinds : StaticError → Bool) (P Q : Scoping → Prop) (ds : List Diagnostic)
    (p : Resolve α) : Prop :=
  ∀ s, P s → match p s with
    | .ok _ s' => Q s' ∧ s'.reported kinds = s.reported kinds ++ ds
    | .error _ s' => ∃ told, told <+: ds ∧ s'.reported kinds = s.reported kinds ++ told

namespace Tells

theorem pure {a : α} : Tells kinds P P [] (Pure.pure a) :=
  fun _ h => ⟨h, (List.append_nil _).symm⟩

theorem throw {e : Unit} : Tells kinds P Q ds (MonadExcept.throw e : Resolve α) :=
  fun _ _ => ⟨[], List.nil_prefix, (List.append_nil _).symm⟩

theorem bind {p : Resolve β} {f : β → Resolve α} (hp : Tells kinds P Q ds p)
    (hf : ∀ b, Tells kinds Q R ds' (f b)) : Tells kinds P R (ds ++ ds') (p >>= f) := by
  intro s hs
  have h := hp s hs
  change match EStateM.bind p f s with
    | .ok _ s' => R s' ∧ s'.reported kinds = s.reported kinds ++ (ds ++ ds')
    | .error _ s' => ∃ told, told <+: ds ++ ds' ∧ s'.reported kinds = s.reported kinds ++ told
  unfold EStateM.bind
  cases hr : p s with
  | error e t =>
      rw [hr] at h
      obtain ⟨told, htold, h⟩ := h
      exact ⟨told, htold.trans (List.prefix_append ds ds'), h⟩
  | ok b t =>
      rw [hr] at h
      obtain ⟨hq, h⟩ := h
      have hrest := hf b t hq
      change match f b t with
        | .ok _ s' => R s' ∧ s'.reported kinds = s.reported kinds ++ (ds ++ ds')
        | .error _ s' => ∃ told, told <+: ds ++ ds' ∧ s'.reported kinds = s.reported kinds ++ told
      cases hr' : f b t with
      | ok a u =>
          rw [hr'] at hrest
          exact ⟨hrest.1, by rw [hrest.2, h, List.append_assoc]⟩
      | error e u =>
          rw [hr'] at hrest
          obtain ⟨told, htold, hu⟩ := hrest
          exact ⟨ds ++ told, (List.prefix_append_right_inj ds).mpr htold,
            by rw [hu, h, List.append_assoc]⟩

/-- Nothing is told at first. -/
theorem after {p : Resolve β} {f : β → Resolve α} (hp : Tells kinds P Q [] p)
    (hf : ∀ b, Tells kinds Q R ds (f b)) : Tells kinds P R ds (p >>= f) := hp.bind hf

/-- Nothing is told at last. -/
theorem ending {p : Resolve β} {f : β → α} (hp : Tells kinds P Q ds p) :
    Tells kinds P Q ds (p >>= fun b => Pure.pure (f b)) := by
  have h := hp.bind (f := fun b => Pure.pure (f b)) fun _ => pure
  rwa [List.append_nil] at h

/-- Nothing is told at last, where something else holds in the end. -/
theorem followed {p : Resolve α} {q : α → Resolve Unit} (hp : Tells kinds P Q ds p)
    (hq : ∀ a, Tells kinds Q R [] (q a)) :
    Tells kinds P R ds (do let a ← p; q a; return a) := by
  have hrest : ∀ a, Tells kinds Q R [] (q a >>= fun _ => Pure.pure a) := fun a => (hq a).ending
  have h := hp.bind hrest
  rwa [List.append_nil] at h

theorem mono {p : Resolve α} (h : Tells kinds P Q ds p) (hP : ∀ s, R s → P s) :
    Tells kinds R Q ds p := fun s hs => h s (hP s hs)

theorem modified {g : Scoping → Scoping}
    (h : ∀ s, P s → Q (g s) ∧ (g s).reported kinds = s.reported kinds) :
    Tells kinds P Q [] (modify g) :=
  fun s hs => ⟨(h s hs).1, (h s hs).2.trans (List.append_nil _).symm⟩

theorem getting {f : Scoping → Resolve α}
    (h : ∀ s, P s → Tells kinds (fun t => t = s) Q ds (f s)) : Tells kinds P Q ds (get >>= f) :=
  fun s hs => h s hs s rfl

theorem report (hP : Scoping.Steady P) (h : kinds error = true) :
    Tells kinds P P [⟨.ofToken token, error⟩] (Resolve.report token error) := by
  intro s hs
  refine ⟨hP s _ _ hs, ?_⟩
  change errorsOf kinds (s.notices.push _).toList = _
  rw [Array.toList_push, errorsOf_append, errorsOf_error h]
  rfl

/-- An error of another kind. -/
theorem other (hP : Scoping.Steady P) (h : kinds error = false) :
    Tells kinds P P [] (Resolve.report token error) :=
  modified fun s hs => ⟨hP s _ _ hs, s.reported_other token h⟩

/-- An error that is reported under a condition. -/
theorem check {c : Scoping → Prop} [DecidablePred c] {fault : Option StaticError}
    (hP : Scoping.Steady P) (hfault : ∀ e ∈ fault, kinds e = true)
    (h : ∀ s, P s → fault = if c s then some error else none) :
    Tells kinds P P (fault.toList.map (⟨.ofToken token, ·⟩))
      (get >>= fun s => if c s then Resolve.report token error else Pure.pure ()) := by
  refine getting fun s hs => ?_
  rw [h s hs]
  by_cases hc : c s
  · have hkind := hfault error (by rw [h s hs, if_pos hc]; rfl)
    simp only [hc, if_true]
    exact (Tells.report hP hkind).mono fun t ht => ht ▸ hs
  · simp only [hc, if_false]
    exact pure.mono (fun t ht => ht ▸ hs)

/-- An error of another kind that is reported under a condition. -/
theorem checkOther {c : Scoping → Prop} [DecidablePred c] (hP : Scoping.Steady P)
    (hkind : kinds error = false) :
    Tells kinds P P []
      (get >>= fun s => if c s then Resolve.report token error else Pure.pure ()) := by
  refine getting fun s hs => ?_
  by_cases hc : c s
  · simp only [hc, if_true]
    exact (Tells.other hP hkind).mono fun t ht => ht ▸ hs
  · simp only [hc, if_false]
    exact pure.mono fun t ht => ht ▸ hs

theorem lookUp (hP : Scoping.Steady P) (form : UseForm) (use : NameUse) :
    Tells kinds P P [] (Resolve.lookUp form use) := by
  refine getting fun s hs => ?_
  cases Scoping.hops? use.name.lexeme s.scopes with
  | none => exact pure.mono fun t ht => ht ▸ hs
  | some hops =>
      refine after (Q := P) (modified fun t ht => ?_) fun _ => pure
      subst ht
      exact ⟨hP _ _ _ hs, rfl⟩

/-- Something between a change of the surroundings and the change back. -/
theorem within {P' Q' : Scoping → Prop} {enter : Scoping → Scoping}
    {leave : Scoping → Scoping → Scoping} {p : Resolve α} (hp : Tells kinds P' Q' ds p)
    (henter : ∀ s, P s → P' (enter s)) (hleave : ∀ before s, P before → Q' s → Q (leave before s))
    (hquiet : ∀ s, (enter s).notices = s.notices)
    (hquiet' : ∀ before s, (leave before s).notices = s.notices) :
    Tells kinds P Q ds (do
      let before ← get
      modify enter
      let a ← p
      modify (leave before)
      return a) := by
  refine getting fun before hbefore => ?_
  refine after (Q := P') (modified fun s hs => ?_) fun _ =>
    hp.followed fun _ => modified fun s hs => ?_
  · subst hs
    exact ⟨henter _ hbefore, Scoping.reported_congr (hquiet s)⟩
  · exact ⟨hleave before s hbefore hs, Scoping.reported_congr (hquiet' before s)⟩

theorem inScope {P' Q' : Scoping → Prop} {names : List String} {p : Resolve α}
    (hp : Tells kinds P' Q' ds p) (henter : ∀ s, P s → P' (s.enter names))
    (hleave : ∀ s, Q' s → Q s.leave) : Tells kinds P Q ds (Resolve.inScope names p) :=
  after (modified fun s hs => ⟨henter s hs, rfl⟩) fun _ =>
    hp.followed fun _ => modified fun s hs => ⟨hleave s hs, rfl⟩

theorem mapM_nil {f : β → Resolve α} : Tells kinds P P [] (([] : List β).mapM f) := pure

theorem mapM_cons {f : β → Resolve α} {b : β} {bs : List β} (hb : Tells kinds P Q ds (f b))
    (hbs : Tells kinds Q R ds' (bs.mapM f)) : Tells kinds P R (ds ++ ds') ((b :: bs).mapM f) := by
  rw [List.mapM_cons]
  exact hb.bind fun _ => hbs.ending

/-- A check before a computation. -/
theorem checking {c : Scoping → Prop} [DecidablePred c] {r : Resolve Unit} {p : Resolve α}
    (hcheck : Tells kinds P Q ds (get >>= fun s => if c s then r else Pure.pure ()))
    (hp : Tells kinds Q R ds' p) :
    Tells kinds P R (ds ++ ds') (get >>= fun s => if c s then r >>= fun _ => p else p) := by
  have h : (get >>= fun s => if c s then r >>= fun _ => p else p) =
      (get >>= fun s => if c s then r else Pure.pure ()) >>= fun _ => p := by
    rw [bind_assoc]
    congr 1
    funext s
    by_cases hc : c s
    · simp only [hc, if_true]
    · simp only [hc, if_false, pure_bind]
  rw [h]
  exact hcheck.bind fun _ => hp

end Tells
end Resolve

namespace UnitText
variable {t : UnitText}

/-- What is written while the unit is prepared. -/
def notices (t : UnitText) : List Notice :=
  (CompiledUnit.ofSource t.levels t.file t.source t.globals t.constants).2

/-- The text is scanned and read without errors. -/
def Readable (t : UnitText) : Prop := (scan t.source).faults ++ t.parsed.reports = []

/-- Name resolution stopped where nesting goes beyond the limit, and nothing is reported after that.
-/
def CutShort (t : UnitText) : Prop :=
  ∃ place, t.notices.getLast? = some (.error ⟨place, .tooMuchNesting⟩)

/-- The notices of a readable unit are those of its resolution. -/
theorem notices_eq (h : t.Readable) :
    t.notices = match t.parsed.statements.mapM (Resolve.statement (t.levels / 2)) t.start with
      | .ok _ s => s.notices.toList
      | .error _ s =>
          s.notices.toList ++ [.error ⟨.line (scan t.source).endLine, .tooMuchNesting⟩] := by
  have hnone := List.isEmpty_iff.mpr h
  unfold parsed at hnone
  unfold notices CompiledUnit.ofSource
  simp only [hnone, if_true]
  unfold CompiledUnit.resolve parsed start
  dsimp only
  split <;> simp only [*]

/-- A unit tells what its statements tell, or the first part of it and then that it is nested too
deeply. -/
theorem errorsOf_notices {kinds : StaticError → Bool} {Q : Scoping → Prop} {ds : List Diagnostic}
    (h : t.Readable) (hkind : kinds .tooMuchNesting = false)
    (htells : Resolve.Tells kinds (fun s => s = t.start) Q ds
      (t.parsed.statements.mapM (Resolve.statement (t.levels / 2)))) :
    errorsOf kinds t.notices = ds ∨ t.CutShort ∧ errorsOf kinds t.notices <+: ds := by
  have htold := htells t.start rfl
  have hnotices := notices_eq h
  cases hr : t.parsed.statements.mapM (Resolve.statement (t.levels / 2)) t.start with
  | ok _ s =>
      rw [hr] at htold hnotices
      rw [hnotices]
      exact .inl htold.2
  | error _ s =>
      rw [hr] at htold hnotices
      obtain ⟨told, htold, hs⟩ := htold
      refine .inr ⟨⟨.line (scan t.source).endLine, ?_⟩, ?_⟩
      · rw [hnotices, List.getLast?_concat]
      · have hs : errorsOf kinds s.notices.toList = told := hs
        rw [hnotices, errorsOf_append, errorsOf_other hkind, List.append_nil, hs]
        exact htold

/-- An accepted unit is readable, and no error is reported in it. -/
theorem notices_ok (h : t.unit.ok = true) : t.Readable ∧ countErrors t.notices = 0 := by
  have hread : t.Readable := errors_nil h
  refine ⟨hread, ?_⟩
  obtain ⟨s, hs⟩ := resolution_ok h
  rw [notices_eq hread, hs.run]
  exact hs.clean

/-- Nor does its resolution stop early. -/
theorem not_cutShort (h : countErrors t.notices = 0) : ¬t.CutShort := by
  rintro ⟨place, hplace⟩
  exact List.countP_eq_zero.mp h _ (List.mem_of_getLast? hplace) rfl

end UnitText
end Treewalk
