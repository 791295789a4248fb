import Treewalk.Proofs.Control.Handlers
import Treewalk.Proofs.Control.Quiet
import Treewalk.Proofs.Run.Sessions

/-!
# Signals are taken

Whatever a unit does, a signal is taken at once by the handler for which it is meant: `break` and
`continue` by the innermost loop around the statement, `return` by the activation of the function
around it. No signal leaves a call, an import or a unit.
-/
namespace Treewalk

/-- A statement is inside another one, with no function between them, and with loops between them
only if `loops`. -/
inductive Stmt.Holds (loops : Bool) : Stmt → Stmt → Prop
  | refl {t : Stmt} : Stmt.Holds loops t t
  | block {body : List Stmt} {s t : Stmt} : s ∈ body → Stmt.Holds loops s t →
      Stmt.Holds loops (.block body) t
  | thenBranch {condition : Expr} {s t : Stmt} {s' : Option Stmt} : Stmt.Holds loops s t →
      Stmt.Holds loops (.if condition s s') t
  | elseBranch {condition : Expr} {s s' t : Stmt} : Stmt.Holds loops s' t →
      Stmt.Holds loops (.if condition s (some s')) t
  | while {condition : Expr} {s t : Stmt} {increment : Option Expr} : loops = true →
      Stmt.Holds loops s t → Stmt.Holds loops (.while condition s increment) t

theorem Stmt.Holds.trans {loops : Bool} {s t u : Stmt} (h : s.Holds loops t)
    (h' : t.Holds loops u) : s.Holds loops u := by
  induction h with
  | refl => exact h'
  | block hs _ ih => exact .block hs (ih h')
  | thenBranch _ ih => exact .thenBranch (ih h')
  | elseBranch _ ih => exact .elseBranch (ih h')
  | «while» hl _ ih => exact .while hl (ih h')

namespace Handler

def id : Handler → Nat
  | .loop id _ | .activation id _ | .unit id _ => id

/-- A loop encloses what is in its body with no other loop between them, a function whatever is in
its body. Functions inside are not looked into. -/
def Encloses : Handler → Stmt → Prop
  | .loop _ (.while _ body _), t => body.Holds false t
  | .activation _ f, t => ∃ s ∈ f.body, s.Holds true t
  | _, _ => False

theorem Encloses.inner {h : Handler} {s t : Stmt} (hs : h.Encloses s) (ht : s.Holds false t)
    (ht' : s.Holds true t) : h.Encloses t := by
  cases h with
  | loop k st =>
      cases st with
      | «while» condition body increment => exact Stmt.Holds.trans hs ht
      | _ => exact hs
  | activation k f =>
      obtain ⟨u, hu, hs⟩ := hs
      exact ⟨u, hu, hs.trans ht'⟩
  | unit k u => exact hs

end Handler

/-- The handler for which a signal is meant: `break` and `continue` for a loop with no function
around it but the one in which the signal was raised, `return` for the activation of that one. -/
def Signal.taker? : Signal → List Handler → Option Handler
  | .break, .loop id st :: _ => some (.loop id st)
  | .continue, .loop id st :: _ => some (.loop id st)
  | .return v, .loop _ _ :: outer => taker? (.return v) outer
  | .return _, .activation id f :: _ => some (.activation id f)
  | _, _ => none

theorem Signal.taker?_mem {c : Signal} {handlers : List Handler} {h : Handler}
    (hh : c.taker? handlers = some h) : h ∈ handlers := by
  induction handlers with
  | nil => cases c <;> cases hh
  | cons h' outer ih =>
      cases c with
      | «return» v =>
          cases h' with
          | loop k st => exact List.mem_cons_of_mem _ (ih hh)
          | activation k f =>
              cases hh
              exact List.mem_cons_self ..
          | unit k u => cases hh
      | «break» | «continue» =>
          cases h' with
          | loop k st =>
              cases hh
              exact List.mem_cons_self ..
          | _ => cases hh

/-- Every signal was taken as soon as it was raised, and none left a boundary. -/
inductive Orderly : List ControlEvent → Prop
  | nil : Orderly []
  | entered {h : Handler} {notes : List ControlEvent} : h.id = notes.length → Orderly notes →
      Orderly (.entered h :: notes)
  | caught {c : Signal} {st : Stmt} {handlers : List Handler} {h : Handler}
      {notes : List ControlEvent} : c.taker? handlers = some h → h.Encloses st →
      .entered h ∈ notes → Orderly notes →
      Orderly (.caught c h :: .raised c st handlers :: notes)
  | left {b : Boundary} {i : Option Interrupt} {notes : List ControlEvent} :
      (∀ c, i ≠ some (.signal c)) → Orderly notes → Orderly (.left b i :: notes)

/-- A signal was just raised, and `h` is to take it. -/
inductive Pending (c : Signal) (h : Handler) : List ControlEvent → Prop
  | intro {st : Stmt} {handlers : List Handler} {notes : List ControlEvent} :
      c.taker? handlers = some h → h.Encloses st → .entered h ∈ notes → Orderly notes →
      Pending c h (.raised c st handlers :: notes)

theorem Pending.caught {c : Signal} {h : Handler} {notes : List ControlEvent}
    (hp : Pending c h notes) : Orderly (.caught c h :: notes) := by
  cases hp with
  | intro htaker hst hentered horderly => exact .caught htaker hst hentered horderly

/-- What holds between two statements of a run. -/
structure Fair (s : Watched World ControlEvent) : Prop where
  lawful : s.state.Lawful
  orderly : Orderly s.notes

/-- What holds after a computation among handlers: no note is taken back, and a signal is pending for
one of the handlers. -/
def After {α : Type} (handlers : List Handler) (notes : List ControlEvent) (Q : α → Prop) :
    EStateM.Result Interrupt (Watched World ControlEvent) α → Prop
  | .ok a s => notes ⊆ s.notes ∧ Fair s ∧ Q a
  | .error (.signal c) s => notes ⊆ s.notes ∧ s.state.Lawful ∧
      ∃ h, c.taker? handlers = some h ∧ Pending c h s.notes
  | .error _ s => notes ⊆ s.notes ∧ Fair s

def Handled {α : Type} (handlers : List Handler) (p : Handling α)
    (s : Watched World ControlEvent) (Q : α → Prop) : Prop := After handlers s.notes Q (p s)

section
variable {α β : Type} {handlers : List Handler} {s t : Watched World ControlEvent}

namespace After
variable {notes notes' : List ControlEvent} {Q : α → Prop}
  {r : EStateM.Result Interrupt (Watched World ControlEvent) α}

theorem mono (h : After handlers notes' Q r) (hn : notes ⊆ notes') : After handlers notes Q r := by
  cases r with
  | ok a s => exact ⟨fun _ hv => h.1 (hn hv), h.2⟩
  | error i s => cases i <;> exact ⟨fun _ hv => h.1 (hn hv), h.2⟩

/-- No signal is pending for no handler. -/
theorem no_signal {c : Signal} {s : Watched World ControlEvent}
    (h : After [] notes Q (.error (.signal c) s)) : False := by
  obtain ⟨-, -, k, hk, -⟩ := h
  exact List.not_mem_nil (Signal.taker?_mem hk)

/-- So handlers make no difference. -/
theorem anywhere (h : After [] notes Q r) : After handlers notes Q r := by
  cases r with
  | ok a s => exact h
  | error i s =>
      cases i with
      | signal c => exact h.no_signal.elim
      | _ => exact h

end After

namespace Handled
variable {p : Handling α} {Q : α → Prop}

theorem pure {a : α} (h : Fair s) (hq : Q a) : Handled handlers (Pure.pure a) s Q :=
  ⟨fun _ hv => hv, h, hq⟩

/-- What is no signal is thrown. -/
theorem throw {i : Interrupt} (h : Fair s) (hi : ∀ c, i ≠ .signal c) :
    Handled handlers (MonadExcept.throw i : Handling α) s Q := by
  cases i with
  | signal c => exact (hi c rfl).elim
  | _ => exact ⟨fun _ hv => hv, h⟩

theorem bind {p : Handling β} {R : β → Prop} {f : β → Handling α} (hp : Handled handlers p s R)
    (hf : ∀ b t, s.notes ⊆ t.notes → Fair t → R b → Handled handlers (f b) t Q) :
    Handled handlers (p >>= f) s Q := by
  unfold Handled at hp
  change After handlers s.notes Q (EStateM.bind p f s)
  unfold EStateM.bind
  cases hr : p s with
  | ok b t =>
      rw [hr] at hp
      obtain ⟨hnotes, hfair, hb⟩ := hp
      exact After.mono (hf b t hnotes hfair hb) hnotes
  | error i t =>
      rw [hr] at hp
      cases i <;> exact hp

theorem anywhere (h : Handled [] p s Q) : Handled handlers p s Q := After.anywhere h

theorem map {f : α → β} {R : β → Prop} (h : Handled handlers p s Q) (hq : ∀ a, Q a → R (f a)) :
    Handled handlers (f <$> p) s R :=
  h.bind fun a _ _ ht ha => .pure ht (hq a ha)

theorem looking {f : World → Handling α} (h : Handled handlers (f s.state) s Q) :
    Handled handlers (Watched.look >>= f) s Q := h

theorem quietly {q : Eval α} (h : Fair s) (hq : q.Quiet Q) :
    Handled handlers (Watched.quietly q) s Q := by
  have hs := hq s.state h.lawful
  unfold Handled Watched.quietly
  cases hr : q s.state with
  | ok a w =>
      rw [hr] at hs
      exact ⟨fun _ hv => hv, ⟨hs.1, h.orderly⟩, hs.2⟩
  | error i w =>
      rw [hr] at hs
      cases i with
      | signal c => exact (hs.2 c rfl).elim
      | _ => exact ⟨fun _ hv => hv, ⟨hs.1, h.orderly⟩⟩

theorem mapM {f : α → Handling β} {as : List α}
    (hf : ∀ a ∈ as, ∀ t, s.notes ⊆ t.notes → Fair t → Handled handlers (f a) t fun _ => True)
    (h : Fair s) : Handled handlers (as.mapM f) s fun _ => True := by
  induction as generalizing s with
  | nil => exact .pure h trivial
  | cons a as ih =>
      rw [List.mapM_cons]
      refine (hf a (List.mem_cons_self ..) s (fun _ hv => hv) h).bind fun b t hst ht _ => ?_
      have has := ih (s := t) (fun a ha u htu hu =>
        hf a (List.mem_cons_of_mem _ ha) u (fun _ hv => htu (hst hv)) hu) ht
      exact has.bind fun bs u _ hu _ => .pure hu trivial

theorem forM {f : α → Handling Unit} {as : List α}
    (hf : ∀ a ∈ as, ∀ t, s.notes ⊆ t.notes → Fair t → Handled handlers (f a) t fun _ => True)
    (h : Fair s) : Handled handlers (as.forM f) s fun _ => True := by
  induction as generalizing s with
  | nil => exact .pure h trivial
  | cons a as ih =>
      refine (hf a (List.mem_cons_self ..) s (fun _ hv => hv) h).bind fun _ t hst ht _ => ?_
      exact ih (fun a ha u htu hu =>
        hf a (List.mem_cons_of_mem _ ha) u (fun _ hv => htu (hst hv)) hu) ht

/-- A handler is entered. -/
theorem entering {make : Nat → Handler} {f : Handler → Handling α} (hfair : Fair s)
    (hid : (make s.notes.length).id = s.notes.length)
    (hf : ∀ t, t.state = s.state → s.notes ⊆ t.notes →
      .entered (make s.notes.length) ∈ t.notes → Fair t →
      Handled handlers (f (make s.notes.length)) t Q) :
    Handled handlers (Handling.enter make >>= f) s Q := by
  have hentered := hf ⟨s.state, .entered (make s.notes.length) :: s.notes⟩ rfl
    (fun _ hv => List.mem_cons_of_mem _ hv) (List.mem_cons_self ..)
    ⟨hfair.lawful, .entered hid hfair.orderly⟩
  exact After.mono hentered fun _ hv => List.mem_cons_of_mem _ hv

/-- A boundary is left without a signal. -/
theorem leaving {b : Boundary} (h : Handled [] p s Q) :
    Handled [] (Handling.leaving b p) s Q := by
  unfold Handled at h ⊢
  unfold Handling.leaving
  cases hr : p s with
  | ok a t =>
      rw [hr] at h
      obtain ⟨hnotes, hfair, ha⟩ := h
      exact ⟨fun _ hv => List.mem_cons_of_mem _ (hnotes hv),
        ⟨hfair.lawful, .left (fun _ hc => nomatch hc) hfair.orderly⟩, ha⟩
  | error i t =>
      rw [hr] at h
      cases i with
      | signal c => exact h.no_signal.elim
      | _ =>
          obtain ⟨hnotes, hfair⟩ := h
          exact ⟨fun _ hv => List.mem_cons_of_mem _ (hnotes hv),
            ⟨hfair.lawful, .left (fun _ hc => nomatch hc) hfair.orderly⟩⟩

theorem atCall {paren : Token} (h : Handled handlers p s Q) :
    Handled handlers (Handling.atCall paren p) s Q := by
  unfold Handled at h ⊢
  unfold Handling.atCall
  cases hr : p s with
  | ok a t =>
      rw [hr] at h
      exact h
  | error i t =>
      rw [hr] at h
      cases i <;> exact h

/-- A round of a loop takes what is meant for the loop. -/
theorem round {k : Nat} {st : Stmt} {body : Handling Unit}
    (h : Handled (.loop k st :: handlers) body s fun _ => True) :
    Handled handlers (Handling.round (.loop k st) body) s fun _ => True := by
  unfold Handled at h ⊢
  unfold Handling.round
  cases hr : body s with
  | ok a t =>
      rw [hr] at h
      exact h
  | error i t =>
      rw [hr] at h
      cases i with
      | signal c =>
          obtain ⟨hnotes, hlawful, taker, htaker, hpending⟩ := h
          cases c with
          | «return» v => exact ⟨hnotes, hlawful, taker, htaker, hpending⟩
          | «break» | «continue» =>
              cases htaker
              exact ⟨fun _ hv => List.mem_cons_of_mem _ (hnotes hv),
                ⟨hlawful, hpending.caught⟩, trivial⟩
      | _ => exact h

/-- An activation takes what is meant for it, and nothing else is raised in it. -/
theorem returned {k : Nat} {f : FunctionDecl} {body : Handling Unit}
    (h : Handled (.activation k f :: handlers) body s fun _ => True) :
    Handled [] (Handling.returned (.activation k f) body) s fun _ => True := by
  unfold Handled at h ⊢
  unfold Handling.returned
  cases hr : body s with
  | ok a t =>
      rw [hr] at h
      exact h
  | error i t =>
      rw [hr] at h
      cases i with
      | signal c =>
          obtain ⟨hnotes, hlawful, taker, htaker, hpending⟩ := h
          cases c with
          | «return» v =>
              cases htaker
              exact ⟨fun _ hv => List.mem_cons_of_mem _ (hnotes hv),
                ⟨hlawful, hpending.caught⟩, trivial⟩
          | _ => cases htaker
      | _ => exact h

/-- Nothing is raised in a unit that is to be taken outside. -/
theorem finishing {k : Nat} {u : CompiledUnit} {home : Ref .interpreter} {body : Handling Unit}
    (h : Handled (.unit k u :: handlers) body s fun _ => True) :
    Handled [] (Handling.finishing home body) s fun _ => True := by
  unfold Handled at h ⊢
  unfold Handling.finishing
  cases hr : body s with
  | ok a t =>
      rw [hr] at h
      exact h
  | error i t =>
      rw [hr] at h
      cases i with
      | signal c =>
          obtain ⟨-, -, taker, htaker, -⟩ := h
          cases c <;> cases htaker
      | error e =>
          have hlawful := h.2.lawful.alike (World.alike_reportRuntime t.state home e)
          exact ⟨h.1, ⟨hlawful, h.2.orderly⟩, trivial⟩
      | _ => exact h

theorem loop {k : Nat} {st : Stmt} {condition : Handling Bool} {body increment : Handling Unit}
    {patience : Nat}
    (hc : ∀ t, s.notes ⊆ t.notes → Fair t → Handled [] condition t fun _ => True)
    (hb : ∀ t, s.notes ⊆ t.notes → Fair t →
      Handled (.loop k st :: handlers) body t fun _ => True)
    (hi : ∀ t, s.notes ⊆ t.notes → Fair t → Handled [] increment t fun _ => True) (h : Fair s) :
    Handled handlers (Handling.loop (.loop k st) condition body increment patience) s
      fun _ => True := by
  induction patience generalizing s with
  | zero => exact .throw h fun _ hc => nomatch hc
  | succ patience ih =>
      refine (hc s (fun _ hv => hv) h).anywhere.bind fun go t hst ht _ => ?_
      cases go with
      | false => exact .pure ht trivial
      | true =>
          refine (hb t hst ht).round.bind fun go u htu hu _ => ?_
          cases go with
          | false => exact .pure hu trivial
          | true =>
              have hsu : s.notes ⊆ u.notes := fun _ hv => htu (hst hv)
              refine (hi u hsu hu).anywhere.bind fun _ x hux hx _ => ?_
              have hsx : s.notes ⊆ x.notes := fun _ hv => hux (hsu hv)
              exact ih (fun y hxy => hc y fun _ hv => hxy (hsx hv))
                (fun y hxy => hb y fun _ hv => hxy (hsx hv))
                (fun y hxy => hi y fun _ hv => hxy (hsx hv)) hx

end Handled
end
end Treewalk
