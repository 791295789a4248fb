/-!
# Watching a computation

A stateful computation can be run again with a list of notes beside its state. The notes are never
read, so that the second run does what the first one does; they only say afterwards what happened.
-/
namespace Treewalk

/-- A state with the notes taken so far, latest first. -/
structure Watched (σ ι : Type) where
  state : σ
  notes : List ι := []

namespace Watched
variable {ε σ ι α β : Type}

/-- A computation that takes no notes. -/
def quietly (p : EStateM ε σ α) : EStateM ε (Watched σ ι) α := fun s =>
  match p s.state with
  | .ok a t => .ok a { s with state := t }
  | .error e t => .error e { s with state := t }

def note (i : ι) : EStateM ε (Watched σ ι) Unit :=
  modify fun s => { s with notes := i :: s.notes }

/-- The watched state. -/
def look : EStateM ε (Watched σ ι) σ := do return (← get).state

theorem get_bind (f : σ → EStateM ε σ α) (s : σ) : (get >>= f) s = f s s := rfl

theorem modify_bind (g : σ → σ) (f : PUnit → EStateM ε σ α) (s : σ) :
    (modify g >>= f) s = f ⟨⟩ (g s) := rfl

/-- A computation that succeeds does so step by step. -/
theorem bind_ok {p : EStateM ε σ α} {f : α → EStateM ε σ β} {s s' : σ} {b : β}
    (h : (p >>= f) s = .ok b s') : ∃ a t, p s = .ok a t ∧ f a t = .ok b s' := by
  change EStateM.bind p f s = .ok b s' at h
  unfold EStateM.bind at h
  cases hp : p s with
  | ok a t =>
      rw [hp] at h
      exact ⟨a, t, rfl, h⟩
  | error e t =>
      rw [hp] at h
      cases h

theorem ok_bind {p : EStateM ε σ α} {f : α → EStateM ε σ β} {s t : σ} {a : α}
    {r : EStateM.Result ε σ β} (hp : p s = .ok a t) (hf : f a t = r) : (p >>= f) s = r := by
  change EStateM.bind p f s = r
  unfold EStateM.bind
  rw [hp]
  exact hf

theorem forM_append {f : α → EStateM ε σ Unit} {first : List α} {s t : σ} {u : Unit}
    (h : first.forM f s = .ok u t) (rest : List α) : (first ++ rest).forM f s = rest.forM f t :=
  (congrFun List.forM_append s).trans (ok_bind h rfl)

/-- An error of a list of computations comes from one of them; those before it succeed. -/
theorem forM_error {f : α → EStateM ε σ Unit} {as : List α} {e : ε} {s t : σ}
    (h : as.forM f s = .error e t) : ∃ first a rest u,
      as = first ++ a :: rest ∧ first.forM f s = .ok () u ∧ f a u = .error e t := by
  induction as generalizing s with
  | nil => cases h
  | cons a as ih =>
      change EStateM.bind (f a) (fun _ => as.forM f) s = _ at h
      unfold EStateM.bind at h
      cases hr : f a s with
      | error e' u =>
          rw [hr] at h
          cases h
          exact ⟨[], a, as, s, rfl, rfl, hr⟩
      | ok b u =>
          rw [hr] at h
          obtain ⟨first, a', rest, v, has, hfirst, hstop⟩ := ih h
          exact ⟨a :: first, a', rest, v, congrArg _ has, ok_bind hr hfirst, hstop⟩

theorem quietly_ok {p : EStateM ε σ α} {s s' : Watched σ ι} {a : α}
    (h : quietly p s = .ok a s') : p s.state = .ok a s'.state ∧ s'.notes = s.notes := by
  unfold quietly at h
  cases hp : p s.state with
  | ok b t =>
      rw [hp] at h
      cases h
      exact ⟨rfl, rfl⟩
  | error e t =>
      rw [hp] at h
      cases h

/-- An outcome without the notes. -/
def forget : EStateM.Result ε (Watched σ ι) α → EStateM.Result ε σ α
  | .ok a s => .ok a s.state
  | .error e s => .error e s.state

/-- Without the notes, `p` is `q`. -/
def Erases (p : EStateM ε (Watched σ ι) α) (q : EStateM ε σ α) : Prop :=
  ∀ s, forget (p s) = q s.state

namespace Erases

theorem pure (a : α) :
    Erases (Pure.pure a : EStateM ε (Watched σ ι) α) (Pure.pure a) := fun _ => rfl

theorem throw (e : ε) :
    Erases (MonadExcept.throw e : EStateM ε (Watched σ ι) α) (MonadExcept.throw e) := fun _ => rfl

theorem quietly (q : EStateM ε σ α) : Erases (quietly q : EStateM ε (Watched σ ι) α) q := by
  intro s
  unfold Watched.quietly
  cases q s.state <;> rfl

theorem look : Erases (look : EStateM ε (Watched σ ι) σ) get := fun _ => rfl

theorem bind {p : EStateM ε (Watched σ ι) α} {q : EStateM ε σ α}
    {f : α → EStateM ε (Watched σ ι) β} {g : α → EStateM ε σ β} (hp : Erases p q)
    (hf : ∀ a, Erases (f a) (g a)) : Erases (p >>= f) (q >>= g) := by
  intro s
  have h := hp s
  change forget (EStateM.bind p f s) = EStateM.bind q g s.state
  unfold EStateM.bind
  rw [← h]
  cases p s with
  | ok a t => exact hf a t
  | error e t => rfl

theorem map {p : EStateM ε (Watched σ ι) α} {q : EStateM ε σ α} (hp : Erases p q) (f : α → β) :
    Erases (f <$> p) (f <$> q) := bind hp fun a => pure (f a)

/-- A note before a computation. -/
theorem noting {p : EStateM ε (Watched σ ι) α} {q : EStateM ε σ α} (i : ι) (hp : Erases p q) :
    Erases (note i >>= fun _ => p) q := fun s => hp { s with notes := i :: s.notes }

/-- Looking before a computation. -/
theorem looking {f : σ → EStateM ε (Watched σ ι) α} {q : EStateM ε σ α}
    (hf : ∀ w, Erases (f w) q) : Erases (Watched.look >>= f) q := fun s => hf s.state s

/-- A condition on the state, checked before a computation. -/
theorem checking {c : σ → Prop} [DecidablePred c] {r : EStateM ε σ Unit}
    {p : EStateM ε (Watched σ ι) α} {q : EStateM ε σ α} (hp : Erases p q) :
    Erases (Watched.quietly (get >>= fun s => if c s then r else Pure.pure ()) >>= fun _ => p)
      (get >>= fun s => if c s then r >>= fun _ => q else q) := by
  have h : (get >>= fun s => if c s then r >>= fun _ => q else q) =
      (get >>= fun s => if c s then r else Pure.pure ()) >>= fun _ => q := by
    rw [bind_assoc]
    congr 1
    funext s
    by_cases hc : c s
    · simp only [hc, if_true]
    · simp only [hc, if_false, pure_bind]
  rw [h]
  exact bind (quietly _) fun _ => hp

theorem mapM {f : α → EStateM ε (Watched σ ι) β} {g : α → EStateM ε σ β}
    (h : ∀ a, Erases (f a) (g a)) (as : List α) : Erases (as.mapM f) (as.mapM g) := by
  induction as with
  | nil =>
      rw [List.mapM_nil, List.mapM_nil]
      exact pure []
  | cons a as ih =>
      rw [List.mapM_cons, List.mapM_cons]
      exact bind (h a) fun b => bind ih fun bs => pure _

theorem forM {f : α → EStateM ε (Watched σ ι) Unit} {g : α → EStateM ε σ Unit}
    (h : ∀ a, Erases (f a) (g a)) (as : List α) : Erases (as.forM f) (as.forM g) := by
  induction as with
  | nil => exact pure ()
  | cons a as ih => exact bind (h a) fun _ => ih

end Erases
end Watched
end Treewalk
