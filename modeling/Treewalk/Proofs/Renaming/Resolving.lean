import Treewalk.Proofs.Renaming.Scopes
import Treewalk.Proofs.Scopes.Visits

/-!
# Resolving with a local renamed

If a tree is resolved without errors, then so is the tree with a local renamed, and every use in it
gets the hops that it had.
-/
namespace Treewalk

open Renaming (Mark Context Marked Declared AllDeclared renames)

namespace Renaming
variable {ρ : Renaming} {Γ : Context}

/-- States of resolution, in a tree and in the one with the old name renamed. No error was reported
in the second one. -/
structure States (ρ : Renaming) (Γ : Context) (s s' : Scoping) : Prop where
  scopes : AllDeclared ρ Γ.marks s.scopes s'.scopes
  globals : s'.globals = s.globals
  constants : s'.globalConstants = s.globalConstants
  initializing : s'.initializing = s.initializing
  function : s'.function = s.function
  classContext : s'.classContext = s.classContext
  inLoop : s'.inLoop = s.inLoop
  around : s.initializing ⊆ Γ.initializing
  admitted : Marked Γ.marks → ρ.old ∉ Γ.initializing ∧ ρ.new ∉ Γ.initializing
  uses : s'.resolutions.toList.map (fun r => (r.form, r.hops)) =
    s.resolutions.toList.map (fun r => (r.form, r.hops))
  clean : s'.Clean

namespace States
variable {s s' : Scoping} {z : String}

theorem record (h : ρ.States Γ s s') (form : UseForm) (t t' : Token) (hops : Nat) :
    ρ.States Γ { s with resolutions := s.resolutions.push ⟨form, t, hops⟩ }
      { s' with resolutions := s'.resolutions.push ⟨form, t', hops⟩ } :=
  { h with
    uses := by
      rw [Array.toList_push, Array.toList_push, List.map_append, List.map_append, h.uses]
      rfl }

/-- What is logged makes no difference. -/
theorem logged (h : ρ.States Γ s s') (notices : Array Notice) :
    ρ.States Γ { s with notices := notices } s' := { h with }

theorem logged' (h : ρ.States Γ s s') (l : LogLine) :
    ρ.States Γ s { s' with notices := s'.notices.push (.log l) } :=
  { h with
    clean := by
      have hclean := h.clean
      unfold Scoping.Clean at hclean ⊢
      rw [Array.toList_push, countErrors_append, hclean]
      rfl }

/-! ### Declarations -/

theorem declare (h : ρ.States Γ s s') (hz : Γ.Fresh ρ z) {token : Token}
    (hc : (s.declare token z).Clean) (token' : Token) :
    ρ.States (Γ.begun ρ z) (s.declare token z) (s'.declare token' (ρ.name Γ.here z)) := by
  obtain ⟨marks, globals⟩ := Γ
  have hscopes := h.scopes
  rcases Scoping.declare_cases hc with ⟨hnil, hnot, heq⟩ | ⟨inner, outer, hcons, hnot, heq⟩
  · rw [hnil] at hscopes
    generalize hs' : s'.scopes = ss' at hscopes
    cases hscopes
    rw [heq]
    unfold Scoping.declare
    simp only [hs', h.constants, Context.here, renames, List.getElem?_nil, Option.any_none,
      name_false, hnot, if_false]
    exact h
  · rw [hcons] at hscopes
    generalize hs' : s'.scopes = ss' at hscopes
    cases hscopes with
    | @cons mark marks _ inner' _ outer' hinner houter =>
        have hnot' : ¬inner'.names.contains (ρ.name mark.renamed z) = true := by
          rw [hinner.names.contains fun hm => hz ⟨mark, List.mem_cons_self .., hm⟩, hnot]
          exact Bool.false_ne_true
        have hhere : Context.here ⟨mark :: marks, globals⟩ = mark.renamed := rfl
        rw [heq, hhere]
        unfold Scoping.declare
        simp only [hs', hnot']
        exact { h with
          scopes := .cons (hinner.begin hz) houter
          admitted := fun hm => h.admitted
            (by simpa only [Context.begun, Marked, List.exists_mem_cons_iff] using hm) }

theorem define (h : ρ.States (Γ.begun ρ z) s s') (hz : Γ.Fresh ρ z) :
    ρ.States Γ (s.define z) (s'.define (ρ.name Γ.here z)) := by
  obtain ⟨marks, globals⟩ := Γ
  cases marks with
  | nil =>
      have hscopes : AllDeclared ρ [] s.scopes s'.scopes := h.scopes
      generalize hs : s.scopes = ss at hscopes
      generalize hs' : s'.scopes = ss' at hscopes
      cases hscopes
      unfold Scoping.define
      simp only [hs, hs', Context.here, renames, List.getElem?_nil, Option.any_none, name_false]
      exact { h with scopes := .nil, globals := congrArg (List.insert z) h.globals }
  | cons mark marks =>
      have hscopes : AllDeclared ρ ({ mark with pending := mark.pending || z == ρ.old } :: marks)
        s.scopes s'.scopes := h.scopes
      generalize hs : s.scopes = ss at hscopes
      generalize hs' : s'.scopes = ss' at hscopes
      cases hscopes with
      | cons hinner houter =>
          have hhere : Context.here ⟨mark :: marks, globals⟩ = mark.renamed := rfl
          rw [hhere]
          unfold Scoping.define
          simp only [hs, hs']
          exact { h with
            scopes := .cons (hinner.complete hz) houter
            admitted := fun hm => h.admitted
              (by simpa only [Context.begun, Marked, List.exists_mem_cons_iff] using hm) }

theorem setMutability (h : ρ.States Γ s s') (hz : Γ.Fresh ρ z) (mutability : Mutability) :
    ρ.States Γ (s.setMutability z mutability)
      (s'.setMutability (ρ.name Γ.here z) mutability) := by
  obtain ⟨marks, globals⟩ := Γ
  have hscopes := h.scopes
  generalize hs : s.scopes = ss at hscopes
  generalize hs' : s'.scopes = ss' at hscopes
  cases hscopes with
  | nil =>
      unfold Scoping.setMutability
      simp only [hs, hs', Context.here, renames, List.getElem?_nil, Option.any_none, name_false]
      exact { h with scopes := .nil, constants := by rw [h.constants] }
  | @cons mark marks _ _ _ _ hinner houter =>
      have hhere : Context.here ⟨mark :: marks, globals⟩ = mark.renamed := rfl
      rw [hhere]
      unfold Scoping.setMutability
      simp only [hs, hs']
      refine { h with scopes := .cons ?_ houter }
      cases mutability with
      | constant => exact hinner.constant hz
      | «variable» => exact hinner.notConstant hz

/-- The initial value of a global is made. -/
theorem enterInitial (h : ρ.States (Γ.begun ρ z) s s') :
    ρ.States (Γ.initial ρ z)
      (if s.scopes.isEmpty then { s with initializing := s.initializing.insert z } else s)
      (if s'.scopes.isEmpty then
        { s' with initializing := s'.initializing.insert (ρ.name Γ.here z) } else s') := by
  obtain ⟨_ | ⟨mark, marks⟩, globals⟩ := Γ
  · have hscopes : AllDeclared ρ [] s.scopes s'.scopes := h.scopes
    have hname : ρ.name (Context.here ⟨[], globals⟩) z = z := name_false z
    have hempty : s.scopes.isEmpty = true ∧ s'.scopes.isEmpty = true := by
      generalize s.scopes = ss at hscopes
      generalize s'.scopes = ss' at hscopes
      cases hscopes
      exact ⟨rfl, rfl⟩
    rw [if_pos hempty.1, if_pos hempty.2, hname]
    refine { h with
      initializing := by rw [h.initializing]
      around := fun y hy => ?_
      admitted := ?_ }
    · rcases List.mem_insert_iff.mp hy with rfl | hy
      · exact List.mem_cons_self ..
      · exact List.mem_cons_of_mem _ (h.around hy)
    · rintro ⟨mark, hmark, -⟩
      cases hmark
  · have hscopes : AllDeclared ρ ({ mark with pending := mark.pending || z == ρ.old } :: marks)
      s.scopes s'.scopes := h.scopes
    have hempty : ¬s.scopes.isEmpty = true ∧ ¬s'.scopes.isEmpty = true := by
      generalize s.scopes = ss at hscopes
      generalize s'.scopes = ss' at hscopes
      cases hscopes
      exact ⟨Bool.false_ne_true, Bool.false_ne_true⟩
    rw [if_neg hempty.1, if_neg hempty.2]
    exact h

/-- It is made. In a marked scope neither the old name nor the new one is that of a global whose
initial value is being made. -/
theorem leaveInitial (h : ρ.States (Γ.initial ρ z) s s') :
    ρ.States (Γ.begun ρ z) { s with initializing := s.initializing.filter (· ≠ z) }
      { s' with initializing := s'.initializing.filter (· ≠ ρ.name Γ.here z) } := by
  obtain ⟨_ | ⟨mark, marks⟩, globals⟩ := Γ
  · have hname : ρ.name (Context.here ⟨[], globals⟩) z = z := name_false z
    rw [hname]
    refine { h with
      initializing := by rw [h.initializing]
      around := fun y hy => ?_
      admitted := ?_ }
    · obtain ⟨hy, hne⟩ := List.mem_filter.mp hy
      exact (List.mem_cons.mp (h.around hy)).resolve_left (of_decide_eq_true hne)
    · rintro ⟨mark, hmark, -⟩
      cases hmark
  · have hhere : Context.here ⟨mark :: marks, globals⟩ = mark.renamed := rfl
    have hsame : s.initializing.filter (· ≠ ρ.name mark.renamed z) =
        s.initializing.filter (· ≠ z) := by
      by_cases hchanged : mark.renamed = true ∧ z = ρ.old
      · obtain ⟨hrenamed, rfl⟩ := hchanged
        obtain ⟨hold, hnew⟩ := h.admitted ⟨_, List.mem_cons_self .., hrenamed⟩
        rw [hrenamed, name_old]
        have hall : ∀ y, y ∉ globals → s.initializing.filter (· ≠ y) = s.initializing :=
          fun y hy => List.filter_eq_self.mpr fun x hx =>
            decide_eq_true fun he => hy (he ▸ h.around hx)
        rw [hall _ hold, hall _ hnew]
      · rw [name, if_neg hchanged]
    rw [hhere]
    refine { h with initializing := by rw [h.initializing, hsame], around := fun y hy => ?_ }
    exact h.around (List.mem_filter.mp hy).1

/-! ### Surroundings -/

/-- A scope with words of the language, or with nothing. -/
theorem enter (h : ρ.States Γ s s') {renamed : Bool} (hadmits : Γ.Admits ρ renamed)
    {names : List String} (hwords : ∀ z ∈ names, TokenKind.ofWord z ≠ .identifier) :
    ρ.States (Γ.enter renamed) (s.enter names) (s'.enter names) := by
  have hbound : ∀ (names : List String) (b : Bindings Bool) (z : String), z ∉ names →
      (names.foldl (fun b name => b.insert name true) b).find? z = b.find? z := by
    intro names
    induction names with
    | nil => exact fun _ _ _ => rfl
    | cons name names ih =>
        intro b z hz
        obtain ⟨hne, hz⟩ := not_or.mp (mt List.mem_cons.mpr hz)
        rw [List.foldl_cons, ih _ z hz, Bindings.find?_insert, if_neg (Ne.symm hne)]
  have hnone : ∀ z, TokenKind.ofWord z = .identifier →
      (names.foldl (fun (b : Bindings Bool) name => b.insert name true) {}).find? z = none :=
    fun z hz => hbound names {} z fun hmem => hwords z hmem hz
  refine { h with scopes := .cons ?_ h.scopes, admitted := fun hm => ?_ }
  · constructor
    case names =>
      intro z hz
      by_cases hold : z = ρ.old
      · rw [hold, hnone _ ρ.oldWord]
        cases renamed with
        | false => rw [name_false, hnone _ ρ.oldWord]
        | true => rw [name_old, hnone _ ρ.newWord]
      · rw [name_of_ne hold]
    case constants => exact fun z _ => iff_of_false List.not_mem_nil List.not_mem_nil
    case gone => exact fun _ => hnone _ ρ.oldWord
    case fresh => exact fun _ => hnone _ ρ.newWord
    case pending =>
      intro hp
      rw [hnone _ ρ.oldWord] at hp
      cases hp
  · obtain ⟨mark, hmem, hrenamed⟩ := hm
    rcases List.mem_cons.mp hmem with rfl | hmem
    · exact hadmits hrenamed
    · exact h.admitted ⟨mark, hmem, hrenamed⟩

theorem leave {renamed : Bool} (h : ρ.States (Γ.enter renamed) s s') :
    ρ.States Γ s.leave s'.leave := by
  have hscopes : AllDeclared ρ (⟨renamed, false⟩ :: Γ.marks) s.scopes s'.scopes := h.scopes
  generalize hs : s.scopes = ss at hscopes
  generalize hs' : s'.scopes = ss' at hscopes
  cases hscopes with
  | cons _ houter =>
      unfold Scoping.leave
      rw [hs, hs']
      exact { h with
        scopes := houter
        admitted := fun ⟨mark, hmem, hrenamed⟩ =>
          h.admitted ⟨mark, List.mem_cons_of_mem _ hmem, hrenamed⟩ }

end States
end Renaming

/-! ### Computations -/

namespace Resolve
open Watched (bind_ok ok_bind)
variable {ρ : Renaming} {Γ Δ Θ : Context} {α β γ δ : Type}

/-- If the first computation has the one result without error, then the second one has the other
one. -/
def Repeats (ρ : Renaming) (Γ Δ : Context) (p : Resolve α) (a : α) (q : Resolve β) (b : β) : Prop :=
  ∀ s t, p s = .ok a t → t.Clean → s.Clean ∧
    ∀ s', ρ.States Γ s s' → ∃ t', q s' = .ok b t' ∧ ρ.States Δ t t'

namespace Repeats

theorem pure (a : α) (b : β) :
    Repeats ρ Γ Γ (Pure.pure a : Resolve α) a (Pure.pure b : Resolve β) b := by
  intro s t h hc
  cases h
  exact ⟨hc, fun s' hs => ⟨s', rfl, hs⟩⟩

theorem bind {p : Resolve α} {q : Resolve β} {f : α → Resolve γ} {g : β → Resolve δ} {a : α} {b : β}
    {c : γ} {d : δ} (hp : Repeats ρ Γ Δ p a q b) (hf : Repeats ρ Δ Θ (f a) c (g b) d)
    (hvalue : ∀ a' u t, f a' u = .ok c t → a' = a) :
    Repeats ρ Γ Θ (p >>= f) c (q >>= g) d := by
  intro s t h hc
  obtain ⟨a', u, hr, h⟩ := bind_ok h
  obtain rfl := hvalue a' u t h
  obtain ⟨hcu, hf⟩ := hf u t h hc
  obtain ⟨hcs, hp⟩ := hp s u hr hcu
  refine ⟨hcs, fun s' hs => ?_⟩
  obtain ⟨u', hq, hu⟩ := hp s' hs
  obtain ⟨t', hg, ht⟩ := hf u' hu
  exact ⟨t', ok_bind hq hg, ht⟩

/-- Something without a result before something else. -/
theorem seq {p q : Resolve Unit} {f : Unit → Resolve γ} {g : Unit → Resolve δ} {c : γ} {d : δ}
    (hp : Repeats ρ Γ Δ p () q ()) (hf : Repeats ρ Δ Θ (f ()) c (g ()) d) :
    Repeats ρ Γ Θ (p >>= f) c (q >>= g) d := hp.bind hf fun _ _ _ _ => rfl

/-- What is made of a result. -/
theorem ending {p : Resolve α} {q : Resolve β} {f : α → γ} {g : β → δ} {a : α} {b : β}
    (hp : Repeats ρ Γ Δ p a q b) (hf : ∀ a', f a' = f a → a' = a) :
    Repeats ρ Γ Δ (p >>= fun a => Pure.pure (f a)) (f a) (q >>= fun b => Pure.pure (g b)) (g b) :=
  hp.bind (.pure _ _) fun a' _ _ h => hf a' (EStateM.Result.ok.inj h).1

theorem modifying {f g : Scoping → Scoping} (hclean : ∀ s, (f s).Clean → s.Clean)
    (h : ∀ s s', (f s).Clean → ρ.States Γ s s' → ρ.States Δ (f s) (g s')) :
    Repeats ρ Γ Δ (modify f : Resolve Unit) () (modify g : Resolve Unit) () := by
  intro s t hr hc
  cases hr
  exact ⟨hclean s hc, fun s' hs => ⟨g s', rfl, h s s' hc hs⟩⟩

/-- What depends on the state. -/
theorem getting {f : Scoping → Resolve α} {g : Scoping → Resolve β} {a : α} {b : β}
    (h : ∀ s t, f s s = .ok a t → t.Clean → s.Clean ∧
      ∀ s', ρ.States Γ s s' → ∃ t', g s' s' = .ok b t' ∧ ρ.States Δ t t') :
    Repeats ρ Γ Δ (get >>= f) a (get >>= g) b := h

/-- A check that reports nothing, before something else. -/
theorem checking {c c' : Scoping → Prop} [DecidablePred c] [DecidablePred c'] {token token' : Token}
    {error : StaticError} {p : Resolve α} {q : Resolve β} {a : α} {b : β}
    (h : ∀ s s' t, ρ.States Γ s s' → p s = .ok a t → c' s' → c s)
    (hp : Repeats ρ Γ Δ p a q b) :
    Repeats ρ Γ Δ (get >>= fun s => if c s then Resolve.report token error >>= fun _ => p else p) a
      (get >>= fun s => if c' s then Resolve.report token' error >>= fun _ => q else q) b := by
  intro s t hr hc
  rw [Watched.get_bind] at hr
  by_cases hs : c s
  · rw [if_pos hs] at hr
    obtain ⟨_, u, hreport, hr⟩ := bind_ok hr
    cases hreport
    exact (Scoping.not_clean_report s token error (hp _ _ hr hc).1).elim
  · rw [if_neg hs] at hr
    obtain ⟨hcs, hp⟩ := hp s t hr hc
    refine ⟨hcs, fun s' hrel => ?_⟩
    rw [Watched.get_bind, if_neg (mt (h s s' t hrel hr) hs)]
    exact hp s' hrel

theorem checked {c c' : Scoping → Prop} [DecidablePred c] [DecidablePred c'] {token token' : Token}
    {error : StaticError} {p : Resolve α} {q : Resolve β} {a : α} {b : β}
    (h : ∀ s s' t, ρ.States Γ s s' → p s = .ok a t → c' s' → c s)
    (hp : Repeats ρ Γ Δ p a q b) :
    Repeats ρ Γ Δ
      ((get >>= fun s => if c s then Resolve.report token error else Pure.pure ()) >>= fun _ => p) a
      ((get >>= fun s => if c' s then Resolve.report token' error else Pure.pure ()) >>= fun _ => q)
      b := by
  intro s t hr hc
  obtain ⟨_, u, hcheck, hr⟩ := bind_ok hr
  rw [Watched.get_bind] at hcheck
  by_cases hs : c s
  · rw [if_pos hs] at hcheck
    cases hcheck
    exact (Scoping.not_clean_report s token error (hp _ _ hr hc).1).elim
  · rw [if_neg hs] at hcheck
    cases hcheck
    obtain ⟨hcs, hp⟩ := hp s t hr hc
    refine ⟨hcs, fun s' hrel => ?_⟩
    obtain ⟨t', hq, ht⟩ := hp s' hrel
    refine ⟨t', ok_bind (a := ()) (t := s') ?_ hq, ht⟩
    rw [Watched.get_bind, if_neg (mt (h s s' t hrel hr) hs)]
    rfl

/-- The same where the state is not asked. -/
theorem unreported {c c' : Prop} [Decidable c] [Decidable c'] {token token' : Token}
    {error : StaticError} {p : Resolve α} {q : Resolve β} {a : α} {b : β} (h : c' → c)
    (hp : Repeats ρ Γ Δ p a q b) :
    Repeats ρ Γ Δ (if c then Resolve.report token error >>= fun _ => p else p) a
      (if c' then Resolve.report token' error >>= fun _ => q else q) b := by
  by_cases hs : c
  · rw [if_pos hs]
    intro s t hr hc
    obtain ⟨_, u, hreport, hr⟩ := bind_ok hr
    cases hreport
    exact (Scoping.not_clean_report s token error (hp _ _ hr hc).1).elim
  · rw [if_neg hs, if_neg (mt h hs)]
    exact hp

section
variable {R : α → α → Prop} {f : β → Resolve α} {g : α → β}

theorem mapM {as as' : List α} (has : List.Forall₂ R as as')
    (h : ∀ a a', R a a' → Repeats ρ Γ Γ (f (g a)) a (f (g a')) a') :
    Repeats ρ Γ Γ ((as.map g).mapM f) as ((as'.map g).mapM f) as' := by
  induction has with
  | nil =>
      rw [List.map_nil, List.mapM_nil]
      exact .pure _ _
  | @cons a a' as as' ha _ ih =>
      rw [List.map_cons, List.map_cons, List.mapM_cons, List.mapM_cons]
      refine (h a a' ha).bind (ih.ending fun _ he => (List.cons.inj he).2) fun a₁ _ _ hr => ?_
      obtain ⟨_, _, -, hr⟩ := bind_ok hr
      exact (List.cons.inj (EStateM.Result.ok.inj hr).1).1

theorem optional {a a' : Option α} (ha : Option.Rel R a a')
    (h : ∀ a a', R a a' → Repeats ρ Γ Γ (f (g a)) a (f (g a')) a') :
    Repeats ρ Γ Γ ((a.map g).mapM f) a ((a'.map g).mapM f) a' := by
  cases ha with
  | none => exact .pure _ _
  | some ha => exact (h _ _ ha).ending fun _ he => Option.some.inj he

end

/-! ### Surroundings -/

section
variable {p : Resolve α} {q : Resolve β} {a : α} {b : β}

/-- Something between a change of the surroundings and the change back. -/
theorem within {enter enter' : Scoping → Scoping} {leave leave' : Scoping → Scoping → Scoping}
    (hp : Repeats ρ Δ Δ p a q b) (hclean : ∀ s, (enter s).Clean → s.Clean)
    (hclean' : ∀ before s, (leave before s).Clean → s.Clean)
    (henter : ∀ s s', ρ.States Γ s s' → ρ.States Δ (enter s) (enter' s'))
    (hleave : ∀ s s' t t', ρ.States Γ s s' → ρ.States Δ t t' →
      ρ.States Γ (leave s t) (leave' s' t')) :
    Repeats ρ Γ Γ
      (do
        let before ← get
        modify enter
        let a ← p
        modify (leave before)
        return a) a
      (do
        let before ← get
        modify enter'
        let b ← q
        modify (leave' before)
        return b) b := by
  refine .getting fun s t h hc => ?_
  obtain ⟨_, _, henters, h⟩ := bind_ok h
  cases henters
  obtain ⟨a', u, hr, h⟩ := bind_ok h
  cases h
  obtain ⟨hcu, hp⟩ := hp (enter s) u hr (hclean' s u hc)
  refine ⟨hclean s hcu, fun s' hs => ?_⟩
  obtain ⟨u', hq, hu⟩ := hp (enter' s') (henter s s' hs)
  exact ⟨leave' s' u', ok_bind (a := ()) rfl (ok_bind hq rfl), hleave s s' u u' hs hu⟩

theorem inScope (names : List String) {renamed : Bool} (hadmits : Γ.Admits ρ renamed)
    (hwords : ∀ z ∈ names, TokenKind.ofWord z ≠ .identifier)
    (hp : Repeats ρ (Γ.enter renamed) (Γ.enter renamed) p a q b) :
    Repeats ρ Γ Γ (Resolve.inScope names p) a (Resolve.inScope names q) b := by
  refine .seq (.modifying (fun _ h => h) fun s s' _ hs => hs.enter hadmits hwords) ?_
  refine hp.bind (.seq (.modifying (fun _ h => h) fun s s' _ hs => hs.leave) (.pure a b))
    fun a' u t h => ?_
  cases h
  rfl

theorem inFunction (context : FunctionContext) (hp : Repeats ρ Γ Γ p a q b) :
    Repeats ρ Γ Γ (Resolve.inFunction context p) a (Resolve.inFunction context q) b :=
  within hp (fun _ h => h) (fun _ _ h => h)
    (fun s s' hs => ({ hs with function := rfl, inLoop := rfl } : ρ.States Γ
      { s with function := context, inLoop := false }
      { s' with function := context, inLoop := false }))
    fun before before' s s' hs ht => ({ ht with function := hs.function, inLoop := hs.inLoop } :
      ρ.States Γ { s with function := before.function, inLoop := before.inLoop }
        { s' with function := before'.function, inLoop := before'.inLoop })

theorem inLoop (hp : Repeats ρ Γ Γ p a q b) :
    Repeats ρ Γ Γ (Resolve.inLoop p) a (Resolve.inLoop q) b :=
  within hp (fun _ h => h) (fun _ _ h => h)
    (fun s s' hs => ({ hs with inLoop := rfl } : ρ.States Γ { s with inLoop := true }
      { s' with inLoop := true }))
    fun before before' s s' hs ht => ({ ht with inLoop := hs.inLoop } : ρ.States Γ
      { s with inLoop := before.inLoop } { s' with inLoop := before'.inLoop })

theorem inClass (context : ClassContext) (hp : Repeats ρ Γ Γ p a q b) :
    Repeats ρ Γ Γ (Resolve.inClass context p) a (Resolve.inClass context q) b :=
  within hp (fun _ h => h) (fun _ _ h => h)
    (fun s s' hs => ({ hs with classContext := rfl } : ρ.States Γ { s with classContext := context }
      { s' with classContext := context }))
    fun before before' s s' hs ht => ({ ht with classContext := hs.classContext } : ρ.States Γ
      { s with classContext := before.classContext }
      { s' with classContext := before'.classContext })

theorem initializing {z : String} (hp : Repeats ρ (Γ.initial ρ z) (Γ.initial ρ z) p a q b) :
    Repeats ρ (Γ.begun ρ z) (Γ.begun ρ z) (Resolve.initializing z p) a
      (Resolve.initializing (ρ.name Γ.here z) q) b := by
  have hclean : ∀ s : Scoping, (if s.scopes.isEmpty then
      { s with initializing := s.initializing.insert z } else s).Clean → s.Clean := by
    intro s h
    by_cases hempty : s.scopes.isEmpty = true
    · rwa [if_pos hempty] at h
    · rwa [if_neg hempty] at h
  rw [Visiting.initializing_eq, Visiting.initializing_eq]
  refine hp.within hclean (fun _ _ h => h) (fun s s' hs => ?_) fun _ _ t t' _ ht => ?_
  · exact hs.enterInitial
  · exact ht.leaveInitial

end

/-! ### Uses -/

theorem lookUp_run (form : UseForm) (use : NameUse) (s : Scoping) :
    Resolve.lookUp form use s =
      match Scoping.hops? use.name.lexeme s.scopes with
      | some hops => .ok { use with hops := some hops }
          { s with resolutions := s.resolutions.push ⟨form, use.name, hops⟩ }
      | none => .ok use s := by
  change (match Scoping.hops? use.name.lexeme s.scopes with
    | some hops => record form use hops
    | none => Pure.pure use) s = _
  cases Scoping.hops? use.name.lexeme s.scopes <;> rfl

/-- A use is found in the scope in which it was found. -/
theorem lookUp (form : UseForm) {use : NameUse} (hz : Γ.Fresh ρ use.name.lexeme) :
    Repeats ρ Γ Γ (Resolve.lookUp form use.bare) use
      (Resolve.lookUp form (ρ.use Γ use).bare) (ρ.use Γ use) := by
  intro s t h hc
  have hfollows := (lookUp_ok rfl h).1
  have hhops : Scoping.hops? use.bare.name.lexeme s.scopes = use.hops := (lookUp_ok rfl h).2.2.symm
  refine ⟨hfollows.clean hc, fun s' hs => ?_⟩
  have hhops' : Scoping.hops? (ρ.use Γ use).bare.name.lexeme s'.scopes = use.hops := by
    have hfound := hs.scopes.hops? hz
    rwa [show Scoping.hops? use.name.lexeme s.scopes = use.hops from hhops] at hfound
  rw [lookUp_run, hhops] at h
  rw [lookUp_run, hhops']
  obtain ⟨name, hops⟩ := use
  cases hops with
  | none =>
      cases h
      exact ⟨s', rfl, hs⟩
  | some hops =>
      cases h
      exact ⟨_, rfl, hs.record form _ _ hops⟩

theorem readOuter_run (use : NameUse) (outer : List StaticScope) (s : Scoping) :
    Resolve.readOuter use outer s =
      match Scoping.hops? use.name.lexeme outer with
      | some hops => .ok { use with hops := some (hops + 1) }
          { s with resolutions := s.resolutions.push ⟨.read, use.name, hops + 1⟩ }
      | none =>
          if use.name.lexeme ∈ s.globals then
            .ok use { s with notices := s.notices.push (.log (.globalRead use.name.lexeme)) }
          else .ok use (s.report use.name .ownInitializer) := by
  unfold Resolve.readOuter
  dsimp only
  cases Scoping.hops? use.name.lexeme outer with
  | some hops => rfl
  | none =>
      dsimp only
      rw [Watched.get_bind]
      by_cases hg : use.name.lexeme ∈ s.globals
      · rw [if_pos hg, if_pos hg]
        rfl
      · rw [if_neg hg, if_neg hg]
        rfl

theorem read_run (use : NameUse) (s : Scoping) :
    Resolve.read use s =
      match s.scopes with
      | inner :: outer =>
          if inner.names.find? use.name.lexeme = some false then Resolve.readOuter use outer s
          else Resolve.lookUp .read use s
      | [] =>
          if use.name.lexeme ∈ s.initializing ∧ use.name.lexeme ∉ s.globals then
            .ok use (s.report use.name .ownInitializer)
          else .ok use s := by
  unfold Resolve.read
  rw [Watched.get_bind]
  cases s.scopes with
  | cons inner outer =>
      dsimp only
      by_cases hp : inner.names.find? use.name.lexeme = some false
      · rw [if_pos hp, if_pos hp]
      · rw [if_neg hp, if_neg hp]
  | nil =>
      dsimp only
      by_cases hi : use.name.lexeme ∈ s.initializing ∧ use.name.lexeme ∉ s.globals
      · rw [if_pos hi, if_pos hi]
        rfl
      · rw [if_neg hi, if_neg hi]
        rfl

/-- A read in the initial value of the name that is read. Where the old name has gone from the
innermost scope, the use is looked up from there, and found further out all the same. -/
theorem readOuter {use u : NameUse} {mark : Mark} {marks : List Mark} {globals : List String}
    {inner inner' : StaticScope} {outer outer' : List StaticScope} {s s' t : Scoping}
    (hs : ρ.States ⟨mark :: marks, globals⟩ s s') (hss' : s'.scopes = inner' :: outer')
    (hinner : Declared ρ mark marks inner inner') (houter : AllDeclared ρ marks outer outer')
    (hz : Context.Fresh ρ ⟨mark :: marks, globals⟩ use.name.lexeme)
    (hp : inner.names.find? use.name.lexeme = some false)
    (hu : u = (ρ.use ⟨mark :: marks, globals⟩ use).bare)
    (h : Resolve.readOuter use.bare outer s = .ok use t) (hc : t.Clean) :
    ∃ t', Resolve.read u s' = .ok { u with hops := use.hops } t' ∧
      ρ.States ⟨mark :: marks, globals⟩ t t' := by
  have hhops : use.hops = (Scoping.hops? use.name.lexeme outer).map (· + 1) :=
    (readOuter_ok rfl h).2.2
  have hlexeme : u.name.lexeme =
      ρ.name (renames marks (Scoping.hops? use.name.lexeme outer)) use.name.lexeme := by
    rw [hu]
    change ρ.name (renames (mark :: marks) use.hops) use.name.lexeme = _
    rw [hhops, Renaming.renames_succ]
  have hhops' := houter.hops? (Renaming.fresh_outer hz)
  have hcases := hinner.find?_outer (r := renames marks (Scoping.hops? use.name.lexeme outer)) hz
    Renaming.marked_of_renames
  rw [← hlexeme] at hhops' hcases
  have hread : Resolve.read u s' = Resolve.readOuter u outer' s' ∨
      Resolve.read u s' = Resolve.lookUp .read u s' ∧
        Scoping.hops? u.name.lexeme s'.scopes = use.hops := by
    rw [read_run, hss']
    rcases hcases with hsame | ⟨-, hnone⟩
    · exact .inl (if_pos (hsame.trans hp))
    · have hnot : ¬inner'.names.contains u.name.lexeme = true := by
        unfold Bindings.contains
        rw [hnone]
        exact Bool.false_ne_true
      refine .inr ⟨if_neg (hnone ▸ nofun), ?_⟩
      rw [hhops, ← hhops']
      exact if_neg hnot
  rw [readOuter_run] at h
  rw [readOuter_run, lookUp_run, hhops'] at hread
  cases hfound : Scoping.hops? use.name.lexeme outer with
  | some hops =>
      have hfound' : Scoping.hops? use.bare.name.lexeme outer = some hops := hfound
      rw [hfound'] at h
      rw [hfound] at hread hhops
      obtain ⟨-, rfl⟩ := EStateM.Result.ok.inj h
      refine ⟨_, ?_, hs.record .read use.name u.name (hops + 1)⟩
      rcases hread with hread | ⟨hread, hlook⟩
      · rw [hread, hhops]
        rfl
      · rw [hread, hlook, hhops]
        rfl
  | none =>
      have hfound' : Scoping.hops? use.bare.name.lexeme outer = none := hfound
      rw [hfound'] at h
      rw [hfound] at hread hhops hlexeme
      have hsame : u.name.lexeme = use.name.lexeme := hlexeme.trans (Renaming.name_false _)
      have hu : u = { u with hops := use.hops } := by
        rw [hhops, hu]
        rfl
      rw [← hu]
      by_cases hg : use.bare.name.lexeme ∈ s.globals
      · have hg' : u.name.lexeme ∈ s'.globals := by
          rw [hs.globals, hsame]
          exact hg
        dsimp only at h
        rw [if_pos hg] at h
        obtain ⟨-, rfl⟩ := EStateM.Result.ok.inj h
        rcases hread with hread | ⟨hread, hlook⟩
        · exact ⟨_, hread.trans (if_pos hg'), (hs.logged _).logged' _⟩
        · rw [hlook, hhops] at hread
          exact ⟨s', hread, hs.logged _⟩
      · dsimp only at h
        rw [if_neg hg] at h
        obtain ⟨-, rfl⟩ := EStateM.Result.ok.inj h
        exact (Scoping.not_clean_report s _ _ hc).elim

theorem read {use : NameUse} (hz : Γ.Fresh ρ use.name.lexeme) :
    Repeats ρ Γ Γ (Resolve.read use.bare) use (Resolve.read (ρ.use Γ use).bare) (ρ.use Γ use) := by
  intro s t h hc
  refine ⟨(read_ok rfl h).1.clean hc, fun s' hs => ?_⟩
  obtain ⟨marks, globals⟩ := Γ
  have hscopes := hs.scopes
  generalize hss : s.scopes = ss at hscopes
  generalize hss' : s'.scopes = ss' at hscopes
  rw [read_run, hss] at h
  cases hscopes with
  | nil =>
      dsimp only at h
      by_cases hi : use.bare.name.lexeme ∈ s.initializing ∧ use.bare.name.lexeme ∉ s.globals
      · rw [if_pos hi] at h
        obtain ⟨-, rfl⟩ := EStateM.Result.ok.inj h
        exact (Scoping.not_clean_report s _ _ hc).elim
      · rw [if_neg hi] at h
        obtain ⟨hbare, rfl⟩ := EStateM.Result.ok.inj h
        have hsame : ρ.use ⟨[], globals⟩ use = use := by
          rw [← hbare]
          exact congrArg (NameUse.mk · none) (Renaming.token_false use.name)
        rw [hsame, read_run, hss']
        dsimp only
        rw [hs.initializing, hs.globals, if_neg hi, hbare]
        exact ⟨s', rfl, hs⟩
  | @cons mark marks inner inner' outer outer' hinner houter =>
      dsimp only at h
      by_cases hp : inner.names.find? use.bare.name.lexeme = some false
      · rw [if_pos hp] at h
        exact readOuter hs hss' hinner houter hz hp rfl h hc
      · rw [if_neg hp] at h
        obtain ⟨t', hr, ht⟩ := (lookUp .read hz s t h hc).2 s' hs
        have hhops : Scoping.hops? use.name.lexeme s.scopes = use.hops := (lookUp_ok rfl h).2.2.symm
        rw [hss] at hhops
        have hp' : ¬inner'.names.find? (ρ.use ⟨mark :: marks, globals⟩ use).bare.name.lexeme =
            some false := by
          change ¬inner'.names.find? (ρ.name (renames (mark :: marks) use.hops) use.name.lexeme) = _
          by_cases hfound : inner.names.contains use.name.lexeme = true
          · have hzero : use.hops = some 0 := hhops.symm.trans (if_pos hfound)
            rw [hzero]
            change ¬inner'.names.find? (ρ.name mark.renamed use.name.lexeme) = _
            rwa [hinner.names _ fun hm => hz ⟨mark, List.mem_cons_self .., hm⟩]
          · have hsucc : use.hops = (Scoping.hops? use.name.lexeme outer).map (· + 1) :=
              hhops.symm.trans (if_neg hfound)
            rw [hsucc, Renaming.renames_succ]
            rcases hinner.find?_outer hz Renaming.marked_of_renames with hsame | ⟨-, hnone⟩
            · rwa [hsame]
            · rw [hnone]
              exact nofun
        refine ⟨t', ?_, ht⟩
        rw [read_run, hss']
        exact (if_neg hp').trans hr

/-! ### Declarations -/

theorem bind_renamed {z : String} (hz : Γ.Fresh ρ z) (token token' : Token) :
    Repeats ρ Γ Γ (Resolve.bind token z) () (Resolve.bind token' (ρ.name Γ.here z)) () :=
  .modifying (fun _ hc => Scoping.clean_of_declare (Scoping.clean_define.mp hc))
    fun _ _ hc hs => (hs.declare hz (Scoping.clean_define.mp hc) token').define hz

theorem bindName {z : String} (hz : Γ.Keeps ρ z) (token : Token) :
    Repeats ρ Γ Γ (Resolve.bind token z) () (Resolve.bind token z) () := by
  have hname : ρ.name Γ.here z = z := if_neg fun h => hz.2 h.1 h.2
  have hbind := bind_renamed hz.1 token token
  rwa [hname] at hbind

theorem parameters {renamed : Bool} {parameters : List Token}
    (h : ∀ p ∈ parameters, (Γ.enter renamed).Fresh ρ p.lexeme) :
    Repeats ρ (Γ.enter renamed) (Γ.enter renamed)
      (parameters.forM fun p => Resolve.bind p p.lexeme) ()
      ((parameters.map (ρ.token renamed)).forM fun p => Resolve.bind p p.lexeme) () := by
  induction parameters with
  | nil => exact .pure () ()
  | cons p parameters ih =>
      have hp := bind_renamed (h p (List.mem_cons_self ..)) p (ρ.token renamed p)
      exact .seq hp (ih fun p hp => h p (List.mem_cons_of_mem _ hp))

/-! ### Checks -/

theorem checkSuper (keyword keyword' : Token) :
    Repeats ρ Γ Γ (Resolve.checkSuper keyword) () (Resolve.checkSuper keyword') () := by
  intro s t h hc
  have hreported : ∀ error, Resolve.checkSuper keyword s ≠ .ok () (s.report keyword error) := by
    intro error he
    rw [he] at h
    cases h
    exact Scoping.not_clean_report s _ _ hc
  have hderived : s.classContext = .derived := by
    cases hcontext : s.classContext with
    | derived => rfl
    | none =>
        refine (hreported .superOutsideClass ?_).elim
        unfold Resolve.checkSuper
        rw [Watched.get_bind, hcontext]
        rfl
    | root =>
        refine (hreported .superWithoutSuperclass ?_).elim
        unfold Resolve.checkSuper
        rw [Watched.get_bind, hcontext]
        rfl
  unfold Resolve.checkSuper at h ⊢
  rw [Watched.get_bind, hderived] at h
  cases h
  refine ⟨hc, fun s' hs => ⟨s', ?_, hs⟩⟩
  rw [Watched.get_bind, hs.classContext, hderived]
  rfl

/-- What a use is bound to is a constant if it was. -/
theorem isConstant_of_hops {use : NameUse} {s s' : Scoping} (hs : ρ.States Γ s s')
    (hz : Γ.Fresh ρ use.name.lexeme) (h : use.hops = Scoping.hops? use.name.lexeme s.scopes) :
    s'.isConstant (ρ.use Γ use).name.lexeme = s.isConstant use.name.lexeme := by
  unfold Scoping.isConstant
  rw [hs.constants, Renaming.lexeme_use, h]
  exact hs.scopes.isConstantIn hz _

/-- In its own initial value the innermost scope has the name, whichever scope a read leads to. -/
theorem isConstant_of_pending {use : NameUse} {s s' : Scoping} {inner : StaticScope}
    {outer : List StaticScope} (hs : ρ.States Γ s s') (hz : Γ.Fresh ρ use.name.lexeme)
    (hset : Γ.Settable ρ (.name use)) (hss : s.scopes = inner :: outer)
    (hp : inner.names.find? use.name.lexeme = some false) :
    s'.isConstant (ρ.use Γ use).name.lexeme = s.isConstant use.name.lexeme := by
  obtain ⟨marks, globals⟩ := Γ
  have hscopes := hs.scopes
  unfold Scoping.isConstant
  rw [hss] at hscopes ⊢
  generalize s'.scopes = ss' at hscopes ⊢
  cases hscopes with
  | @cons mark marks _ inner' _ outer' hinner houter =>
      have hz' : mark.renamed = true → use.name.lexeme ≠ ρ.new :=
        fun hm => hz ⟨mark, List.mem_cons_self .., hm⟩
      have hname : (ρ.use ⟨mark :: marks, globals⟩ use).name.lexeme =
          ρ.name mark.renamed use.name.lexeme := by
        rw [Renaming.lexeme_use]
        by_cases hold : use.name.lexeme = ρ.old
        · obtain ⟨hhere, hrenames⟩ := hset use rfl hold (hinner.pending (hold ▸ hp))
          rw [hrenames, show mark.renamed = false from hhere]
        · rw [Renaming.name_of_ne hold, Renaming.name_of_ne hold]
      have hcontains : inner.names.contains use.name.lexeme = true := congrArg Option.isSome hp
      rw [hname]
      unfold Scoping.isConstantIn
      rw [hinner.names.contains hz', if_pos hcontains, if_pos hcontains]
      exact decide_eq_decide.mpr (hinner.constants _ hz')

/-- What a use is read as is a constant if it was. -/
theorem isConstant_of_read {use : NameUse} {s s' t : Scoping} (hs : ρ.States Γ s s')
    (hz : Γ.Fresh ρ use.name.lexeme) (hset : Γ.Settable ρ (.name use))
    (h : Resolve.read use.bare s = .ok use t) :
    s'.isConstant (ρ.use Γ use).name.lexeme = s.isConstant use.name.lexeme := by
  have hfound := isConstant_of_hops hs hz
  rw [read_run] at h
  cases hss : s.scopes with
  | nil =>
      rw [hss] at h
      refine hfound ?_
      rw [hss]
      dsimp only at h
      split at h <;> rw [← (EStateM.Result.ok.inj h).1] <;> rfl
  | cons inner outer =>
      rw [hss] at h
      dsimp only at h
      by_cases hp : inner.names.find? use.bare.name.lexeme = some false
      · exact isConstant_of_pending hs hz hset hss hp
      · rw [if_neg hp] at h
        exact hfound (lookUp_ok rfl h).2.2

theorem checkFieldWrite {object object' : Expr} (name : Token) {levels : Nat}
    (hset : Γ.Settable ρ object) (h : object.Renamed ρ Γ object')
    (hp : Repeats ρ Γ Γ (expression levels object.bare) object
      (expression levels object'.bare) object') :
    Repeats ρ Γ Γ
      (Resolve.checkFieldWrite object.bare name >>= fun _ => expression levels object.bare) object
      (Resolve.checkFieldWrite object'.bare name >>= fun _ => expression levels object'.bare)
      object' := by
  cases h with
  | @name _ use hz =>
      refine checked (fun s s' t hs hr hc => ?_) hp
      cases levels with
      | zero => cases hr
      | succ levels =>
          obtain ⟨u, t', hread, hr⟩ := bind_ok hr
          cases hr
          exact (isConstant_of_read hs hz hset hread).symm.trans hc
  | _ => exact hp

end Repeats

/-! ### Trees -/

/-- Name resolution of a tree and of the renamed one, with some levels. -/
structure LevelRepeats (ρ : Renaming) (levels : Nat) : Prop where
  expression : ∀ {Γ e e'}, Expr.Renamed ρ Γ e e' →
    Repeats ρ Γ Γ (expression levels e.bare) e (expression levels e'.bare) e'
  statement : ∀ {Γ s s'}, Stmt.Renamed ρ Γ s s' →
    Repeats ρ Γ Γ (statement levels s.bare) s (statement levels s'.bare) s'
  method : ∀ {Γ d d'}, FunctionDecl.Renamed ρ Γ d d' →
    Repeats ρ Γ Γ (method levels d.bare) d (method levels d'.bare) d'
  functionBody : ∀ (context : FunctionContext) {Γ d d'}, FunctionDecl.Renamed ρ Γ d d' →
    Repeats ρ Γ Γ (functionBody levels context d.bare) d (functionBody levels context d'.bare) d'

namespace LevelRepeats
variable {levels : Nat} (ih : LevelRepeats ρ levels)
include ih

theorem expressions {es es' : List Expr} (h : ExprsRenamed ρ Γ es es') :
    Repeats ρ Γ Γ ((bareExprs es).mapM (Resolve.expression levels)) es
      ((bareExprs es').mapM (Resolve.expression levels)) es' := by
  rw [bareExprs_eq, bareExprs_eq]
  exact .mapM h.forall₂ fun _ _ he => ih.expression he

theorem optional {e e' : Option Expr} (h : ExprsRenamed ρ Γ e.toList e'.toList) :
    Repeats ρ Γ Γ ((bareExpr? e).mapM (Resolve.expression levels)) e
      ((bareExpr? e').mapM (Resolve.expression levels)) e' := by
  rw [bareExpr?_eq, bareExpr?_eq]
  exact .optional h.option fun _ _ he => ih.expression he

theorem statements {ss ss' : List Stmt} (h : StmtsRenamed ρ Γ ss ss') :
    Repeats ρ Γ Γ ((bareStmts ss).mapM (Resolve.statement levels)) ss
      ((bareStmts ss').mapM (Resolve.statement levels)) ss' := by
  rw [bareStmts_eq, bareStmts_eq]
  exact .mapM h.forall₂ fun _ _ hs => ih.statement hs

theorem methods {ds ds' : List FunctionDecl} (h : FunctionsRenamed ρ Γ ds ds') :
    Repeats ρ Γ Γ ((bareFunctions ds).mapM (Resolve.method levels)) ds
      ((bareFunctions ds').mapM (Resolve.method levels)) ds' := by
  rw [bareFunctions_eq, bareFunctions_eq]
  exact .mapM h.forall₂ fun _ _ hd => ih.method hd

theorem expression_succ {e e' : Expr} (h : e.Renamed ρ Γ e') :
    Repeats ρ Γ Γ (Resolve.expression (levels + 1) e.bare) e
      (Resolve.expression (levels + 1) e'.bare) e' := by
  cases h with
  | literal value => exact .pure _ _
  | grouping h => exact (ih.expression h).ending fun _ he => Expr.grouping.inj he
  | name hz => exact (Repeats.read hz).ending fun _ he => Expr.name.inj he
  | @assign _ use e e' hz h =>
      refine (ih.expression h).bind (.checking (fun s s' t hs hr hc => ?_)
        ((Repeats.lookUp .assign hz).ending fun _ he => (Expr.assign.inj he).1)) fun a u t h => ?_
      · obtain ⟨_, _, hlook, hr⟩ := bind_ok hr
        cases hr
        exact (Repeats.isConstant_of_hops hs hz (lookUp_ok rfl hlook).2.2).symm.trans hc
      · rw [Watched.get_bind] at h
        split at h
        · obtain ⟨_, _, -, h⟩ := bind_ok h
          obtain ⟨_, _, -, h⟩ := bind_ok h
          exact (Expr.assign.inj (EStateM.Result.ok.inj h).1).2
        · obtain ⟨_, _, -, h⟩ := bind_ok h
          exact (Expr.assign.inj (EStateM.Result.ok.inj h).1).2
  | unary h => exact (ih.expression h).ending fun _ he => (Expr.unary.inj he).2.2
  | binary ha hb =>
      refine (ih.expression ha).bind
        ((ih.expression hb).ending fun _ he => (Expr.binary.inj he).2.2.2) fun a u t h => ?_
      obtain ⟨_, _, -, h⟩ := bind_ok h
      exact (Expr.binary.inj (EStateM.Result.ok.inj h).1).1
  | logical ha hb =>
      refine (ih.expression ha).bind
        ((ih.expression hb).ending fun _ he => (Expr.logical.inj he).2.2.2) fun a u t h => ?_
      obtain ⟨_, _, -, h⟩ := bind_ok h
      exact (Expr.logical.inj (EStateM.Result.ok.inj h).1).1
  | call hcallee hes =>
      refine (ih.expression hcallee).bind
        ((ih.expressions hes).ending fun _ he => (Expr.call.inj he).2.2) fun a u t h => ?_
      obtain ⟨_, _, -, h⟩ := bind_ok h
      exact (Expr.call.inj (EStateM.Result.ok.inj h).1).1
  | get h => exact (ih.expression h).ending fun _ he => (Expr.get.inj he).1
  | @set _ a a' b b' name hset ha hb =>
      have hobject := (Repeats.checkFieldWrite name hset ha (ih.expression ha)).ending
        (f := fun o => Expr.set o name b) (g := fun o => Expr.set o name b')
        fun _ he => (Expr.set.inj he).1
      rw [bind_assoc, bind_assoc] at hobject
      refine (ih.expression hb).bind hobject fun _ u t h => ?_
      obtain ⟨_, _, -, h⟩ := bind_ok h
      obtain ⟨_, _, -, h⟩ := bind_ok h
      exact (Expr.set.inj (EStateM.Result.ok.inj h).1).2.2
  | @this _ use hz =>
      have hlook := (Repeats.lookUp (Γ := Γ) .this hz).ending
        (f := Expr.this) (g := Expr.this) fun _ he => Expr.this.inj he
      refine .getting fun s t h hc => ?_
      by_cases hnone : s.classContext = .none
      · rw [if_pos hnone] at h
        obtain ⟨_, _, hreport, h⟩ := bind_ok h
        cases hreport
        obtain ⟨-, rfl⟩ := EStateM.Result.ok.inj h
        exact (Scoping.not_clean_report s _ _ hc).elim
      · rw [if_neg hnone] at h
        obtain ⟨hcs, hrest⟩ := hlook s t h hc
        refine ⟨hcs, fun s' hs => ?_⟩
        rw [hs.classContext, if_neg hnone]
        exact hrest s' hs
  | super hz =>
      exact .seq (.checkSuper _ _)
        ((Repeats.lookUp .super hz).ending fun _ he => (Expr.super.inj he).1)
  | lambda h => exact (ih.functionBody .lambda h).ending fun _ he => Expr.lambda.inj he

theorem optionalStmt {s s' : Option Stmt} (h : StmtsRenamed ρ Γ s.toList s'.toList) :
    Repeats ρ Γ Γ ((bareStmt? s).mapM (Resolve.statement levels)) s
      ((bareStmt? s').mapM (Resolve.statement levels)) s' := by
  rw [bareStmt?_eq, bareStmt?_eq]
  exact .optional h.option fun _ _ hs => ih.statement hs

/-- The initial value of a variable, between the two parts of its declaration. -/
theorem initial {name : Token} {e e' : Option Expr}
    (h : ExprsRenamed ρ (Γ.initial ρ name.lexeme) e.toList e'.toList) :
    Repeats ρ (Γ.begun ρ name.lexeme) (Γ.begun ρ name.lexeme)
      ((bareExpr? e).mapM fun e => initializing name.lexeme (Resolve.expression levels e)) e
      ((bareExpr? e').mapM fun e =>
        initializing (ρ.token Γ.here name).lexeme (Resolve.expression levels e)) e' := by
  cases h.option with
  | none => exact .pure _ _
  | some he => exact ((ih.expression he).initializing).ending fun _ heq => Option.some.inj heq

theorem statement_succ {s s' : Stmt} (h : s.Renamed ρ Γ s') :
    Repeats ρ Γ Γ (Resolve.statement (levels + 1) s.bare) s
      (Resolve.statement (levels + 1) s'.bare) s' := by
  cases h with
  | expression h => exact (ih.expression h).ending fun _ he => Stmt.expression.inj he
  | print h => exact (ih.expression h).ending fun _ he => Stmt.print.inj he
  | @var _ mutability name e e' hz h =>
      refine .seq (.modifying (fun _ => Scoping.clean_of_declare)
        fun s s' hc hs => hs.declare hz hc _) ?_
      refine (ih.initial h).bind (.seq (.modifying
        (fun s hc => Scoping.clean_define.mp (Scoping.clean_setMutability.mp hc))
        fun s s' _ hs => (hs.define hz).setMutability hz mutability) (.pure _ _)) fun _ u t h => ?_
      cases h
      rfl
  | block renamed hadmits h =>
      exact ((ih.statements h).inScope [] hadmits (List.forall_mem_nil _)).ending
        fun _ he => Stmt.block.inj he
  | «if» hc hs ht =>
      refine (ih.expression hc).bind ((ih.statement hs).bind
        ((ih.optionalStmt ht).ending fun _ he => (Stmt.if.inj he).2.2) fun _ u t h => ?_)
          fun _ u t h => ?_
      · obtain ⟨_, _, -, h⟩ := bind_ok h
        exact (Stmt.if.inj (EStateM.Result.ok.inj h).1).2.1
      · obtain ⟨_, _, -, h⟩ := bind_ok h
        obtain ⟨_, _, -, h⟩ := bind_ok h
        exact (Stmt.if.inj (EStateM.Result.ok.inj h).1).1
  | «while» hc hs he =>
      refine Repeats.inLoop ((ih.expression hc).bind ((ih.statement hs).bind
        ((ih.optional he).ending fun _ he => (Stmt.while.inj he).2.2) fun _ u t h => ?_)
          fun _ u t h => ?_)
      · obtain ⟨_, _, -, h⟩ := bind_ok h
        exact (Stmt.while.inj (EStateM.Result.ok.inj h).1).2.1
      · obtain ⟨_, _, -, h⟩ := bind_ok h
        obtain ⟨_, _, -, h⟩ := bind_ok h
        exact (Stmt.while.inj (EStateM.Result.ok.inj h).1).1
  | «break» keyword =>
      exact .checking (fun s s' _ hs _ hc => hs.inLoop ▸ hc) (.pure _ _)
  | «continue» keyword =>
      exact .checking (fun s s' _ hs _ hc => hs.inLoop ▸ hc) (.pure _ _)
  | @«return» _ keyword e e' h =>
      have hsome : (bareExpr? e').isSome = (bareExpr? e).isSome := by
        cases e <;> cases e' <;> first | rfl | cases h
      refine .checked (fun s s' _ hs _ hc => hs.function ▸ hc) (.checking
        (fun s s' _ hs _ hc => ?_) ((ih.optional h).ending fun _ he => (Stmt.return.inj he).2))
      rwa [hsome, hs.function] at hc
  | @function _ d d' hkeeps h =>
      have hbody := (ih.functionBody .function h).ending (f := Stmt.function) (g := Stmt.function)
        fun _ he => Stmt.function.inj he
      rw [Stmt.bare, Stmt.bare]
      unfold Resolve.statement
      dsimp only
      rw [FunctionDecl.name_bare, FunctionDecl.name_bare, h.name]
      unfold FunctionDecl.displayName at hkeeps
      cases hname : d.name with
      | none => exact hbody
      | some name =>
          rw [hname] at hkeeps
          exact .seq (.bindName hkeeps name) hbody
  | @root _ name ds ds' hkeeps h =>
      have hmethods := ((ih.methods h).inScope ["this"] (Context.admits_false Γ) (by decide)).ending
        (f := Stmt.class name none) (g := Stmt.class name none)
        fun _ he => (Stmt.class.inj he).2.2
      exact .inClass _ (.seq (.bindName hkeeps name) hmethods)
  | @derived _ name use ds ds' hkeeps hz h =>
      have hmethods := (((ih.methods h).inScope ["this"] (Context.admits_false (Γ.enter false))
        (by decide)).inScope ["super"] (Context.admits_false Γ) (by decide)).ending
        (f := Stmt.class name (some use)) (g := Stmt.class name (some (ρ.use Γ use)))
        fun _ he => (Stmt.class.inj he).2.2
      refine .inClass _ (.seq (.bindName hkeeps name) (.unreported (fun hself => ?_)
        ((Repeats.read hz).bind hmethods fun u s t h => ?_)))
      · change ρ.name (renames Γ.marks use.hops) use.name.lexeme = name.lexeme at hself
        change use.name.lexeme = name.lexeme
        by_cases hrenamed : renames Γ.marks use.hops = true ∧ use.name.lexeme = ρ.old
        · rw [Renaming.name, if_pos hrenamed] at hself
          exact (hkeeps.1 (Renaming.marked_of_renames hrenamed.1) hself.symm).elim
        · rwa [Renaming.name, if_neg hrenamed] at hself
      · obtain ⟨_, _, -, h⟩ := bind_ok h
        exact Option.some.inj (Stmt.class.inj (EStateM.Result.ok.inj h).1).2.1
  | @importModule _ keyword name as hkeeps =>
      rw [Stmt.bare]
      unfold Resolve.statement
      dsimp only
      cases importNameError? (importedModule name) as.isSome with
      | some error =>
          intro s t h hc
          cases h
          exact (Scoping.not_clean_report s _ _ hc).elim
      | none => exact .seq (.bindName hkeeps _) (.pure _ _)

theorem functionBody_succ (context : FunctionContext) {d d' : FunctionDecl}
    (h : d.Renamed ρ Γ d') :
    Repeats ρ Γ Γ (Resolve.functionBody (levels + 1) context d.bare) d
      (Resolve.functionBody (levels + 1) context d'.bare) d' := by
  cases h with
  | @mk _ renamed name parameters ss ss' hadmits hparameters h =>
      refine .inFunction context (.inScope [] hadmits (List.forall_mem_nil _) ?_)
      exact .seq (.parameters hparameters)
        ((ih.statements h).ending fun _ he => (FunctionDecl.mk.inj he).2.2)

end LevelRepeats

theorem levelRepeats (ρ : Renaming) (levels : Nat) : LevelRepeats ρ levels := by
  induction levels with
  | zero =>
      constructor
      case functionBody => exact fun _ _ _ _ _ _ _ h => nomatch h
      all_goals exact fun _ _ _ h => nomatch h
  | succ levels ih =>
      constructor
      case expression => exact ih.expression_succ
      case statement => exact ih.statement_succ
      case functionBody => exact fun context _ _ _ hd => ih.functionBody_succ context hd
      case method =>
        intro Γ d d' hd
        have hcontext : methodContext d'.bare = methodContext d.bare := by
          unfold methodContext
          rw [FunctionDecl.name_bare, FunctionDecl.name_bare, hd.name]
        unfold Resolve.method
        rw [hcontext]
        exact ih.functionBody _ hd

end Resolve
end Treewalk
