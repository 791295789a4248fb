import Treewalk.Proofs.Run.Events

/-!
# Where runs lead

A run goes from a state to another one, whichever way it ends; what it returns or raises has a
property there. What does so step by step does so as a whole, for every relation of states along
runs.
-/
namespace Treewalk

/-- A relation of each state of a run to the later ones. It holds of a state and itself wherever a
run has come to. -/
class Course {σ : Type} (Go : σ → σ → Prop) : Prop where
  stay {s t : σ} : Go s t → Go t t
  trans {s t u : σ} : Go s t → Go t u → Go s u

/-- A run from a state to which it stands in a relation; it returns something with the property `Q`,
or raises something with the property `E`. -/
def Yields {ε σ α : Type} (Go : σ → σ → Prop) (E : ε → σ → Prop) (p : EStateM ε σ α) (s : σ)
    (Q : α → σ → Prop) : Prop :=
  match p s with
  | .ok a t => Go s t ∧ Q a t
  | .error e t => Go s t ∧ E e t

namespace Yields
variable {ε σ α β : Type} {Go : σ → σ → Prop} {E : ε → σ → Prop} {p : EStateM ε σ α} {s : σ}
  {Q R : α → σ → Prop}

theorem pure {a : α} (h : Go s s) (hq : Q a s) : Yields Go E (Pure.pure a) s Q := ⟨h, hq⟩

theorem throw {e : ε} (h : Go s s) (he : E e s) : Yields Go E (MonadExcept.throw e) s Q := ⟨h, he⟩

theorem weaken (h : Yields Go E p s Q) (hq : ∀ a t, Go s t → Q a t → R a t) :
    Yields Go E p s R := by
  unfold Yields at h ⊢
  cases hp : p s with
  | ok a t =>
      simp only [hp] at h ⊢
      exact ⟨h.1, hq a t h.1 h.2⟩
  | error e t =>
      simp only [hp] at h ⊢
      exact h

theorem trivially (h : Yields Go E p s Q) : Yields Go E p s fun _ _ => True :=
  h.weaken fun _ _ _ _ => trivial

variable [Course Go]

theorem bind {f : α → EStateM ε σ β} {R : β → σ → Prop} (h : Yields Go E p s Q)
    (hf : ∀ a t, Go s t → Q a t → Yields Go E (f a) t R) : Yields Go E (p >>= f) s R := by
  change match EStateM.bind p f s with
    | .ok b t => Go s t ∧ R b t
    | .error e t => Go s t ∧ E e t
  unfold Yields at h
  unfold EStateM.bind
  cases hp : p s with
  | error e t =>
      simp only [hp] at h ⊢
      exact h
  | ok a t =>
      simp only [hp] at h ⊢
      have hfa := hf a t h.1 h.2
      unfold Yields at hfa
      cases hf' : f a t with
      | ok b u =>
          simp only [hf'] at hfa ⊢
          exact ⟨Course.trans h.1 hfa.1, hfa.2⟩
      | error e u =>
          simp only [hf'] at hfa ⊢
          exact ⟨Course.trans h.1 hfa.1, hfa.2⟩

theorem map {f : α → β} {R : β → σ → Prop} (h : Yields Go E p s Q)
    (hq : ∀ a t, Go s t → Q a t → R (f a) t) : Yields Go E (f <$> p) s R :=
  h.bind fun a t ht ha => .pure (Course.stay ht) (hq a t ht ha)

/-- What is yielded for every element is yielded for all, if it stays. -/
theorem mapM {f : α → EStateM ε σ β} {as : List α} {P : β → σ → Prop}
    (hf : ∀ a ∈ as, ∀ t, Go s t → Yields Go E (f a) t P)
    (hkeep : ∀ b t u, Go t u → P b t → P b u) (h : Go s s) :
    Yields Go E (as.mapM f) s fun bs t => ∀ b ∈ bs, P b t := by
  induction as generalizing s with
  | nil => exact .pure h fun _ hb => nomatch hb
  | cons a as ih =>
      rw [List.mapM_cons]
      refine (hf a (List.mem_cons_self ..) s h).bind fun b t ht hb => ?_
      have hrest := ih (fun a ha u hu => hf a (List.mem_cons_of_mem _ ha) u (Course.trans ht hu))
        (Course.stay ht)
      refine hrest.bind fun bs u hu hbs => .pure (Course.stay hu) fun b' hb' => ?_
      rcases List.mem_cons.mp hb' with rfl | hb'
      · exact hkeep _ t u hu hb
      · exact hbs b' hb'

theorem mapM_trivially {f : α → EStateM ε σ β} {as : List α}
    (hf : ∀ a ∈ as, ∀ t, Go s t → Yields Go E (f a) t fun _ _ => True) (h : Go s s) :
    Yields Go E (as.mapM f) s fun _ _ => True :=
  trivially (mapM (P := fun _ _ => True) hf (fun _ _ _ _ _ => trivial) h)

theorem forM {f : α → EStateM ε σ Unit} {as : List α}
    (hf : ∀ a ∈ as, ∀ t, Go s t → Yields Go E (f a) t fun _ _ => True) (h : Go s s) :
    Yields Go E (as.forM f) s fun _ _ => True := by
  induction as generalizing s with
  | nil => exact .pure h trivial
  | cons a as ih =>
      refine (hf a (List.mem_cons_self ..) s h).bind fun _ t ht _ => ?_
      exact ih (fun a ha u hu => hf a (List.mem_cons_of_mem _ ha) u (Course.trans ht hu))
        (Course.stay ht)

end Yields

/-! ### Taking interrupts -/

namespace Watching
variable {Go : Watched World Event → Watched World Event → Prop}
  {E : Interrupt → Watched World Event → Prop} {s : Watched World Event} {α : Type}

theorem round_yields {body : Watching Unit} (h : Yields Go E body s fun _ _ => True) :
    Yields Go E (round body) s fun _ _ => True := by
  unfold Yields at h ⊢
  unfold round
  cases hb : body s with
  | ok a t =>
      simp only [hb] at h ⊢
      exact h
  | error i t =>
      simp only [hb] at h ⊢
      cases i with
      | signal c =>
          cases c with
          | «return» v => exact h
          | «break» => exact ⟨h.1, trivial⟩
          | «continue» => exact ⟨h.1, trivial⟩
      | _ => exact h

theorem returned_yields {body : Watching Unit} {Q : Value → Watched World Event → Prop}
    (h : Yields Go E body s fun _ _ => True) (hnil : ∀ t, Q .nil t)
    (hreturn : ∀ v t, E (.signal (.return v)) t → Q v t) : Yields Go E (returned body) s Q := by
  unfold Yields at h ⊢
  unfold returned
  cases hb : body s with
  | ok a t =>
      simp only [hb] at h ⊢
      exact ⟨h.1, hnil t⟩
  | error i t =>
      simp only [hb] at h ⊢
      cases i with
      | signal c =>
          cases c with
          | «return» v => exact ⟨h.1, hreturn v t h.2⟩
          | «break» => exact h
          | «continue» => exact h
      | _ => exact h

theorem atCall_yields {paren : Token} {call : Watching α} {Q : α → Watched World Event → Prop}
    (h : Yields Go E call s Q) (herror : ∀ t, Go s t → E (.error ⟨paren, .stackOverflow⟩) t) :
    Yields Go E (atCall paren call) s Q := by
  unfold Yields at h ⊢
  unfold atCall
  cases hb : call s with
  | ok a t =>
      simp only [hb] at h ⊢
      exact h
  | error i t =>
      simp only [hb] at h ⊢
      cases i with
      | overflow => exact ⟨h.1, herror t h.1⟩
      | _ => exact h

theorem loop_yields [Course Go] {condition : Watching Bool} {body increment : Watching Unit}
    (hc : ∀ t, Go s t → Yields Go E condition t fun _ _ => True)
    (hb : ∀ t, Go s t → Yields Go E body t fun _ _ => True)
    (hi : ∀ t, Go s t → Yields Go E increment t fun _ _ => True)
    (hexhausted : ∀ t, E .exhausted t) (h : Go s s) (patience : Nat) :
    Yields Go E (loop condition body increment patience) s fun _ _ => True := by
  induction patience generalizing s with
  | zero => exact .throw h (hexhausted s)
  | succ patience ih =>
      refine (hc s h).bind fun go t ht _ => ?_
      cases go with
      | false => exact .pure (Course.stay ht) trivial
      | true =>
          refine (round_yields (hb t ht)).bind fun go u hu _ => ?_
          cases go with
          | false => exact .pure (Course.stay hu) trivial
          | true =>
              refine (hi u (Course.trans ht hu)).bind fun _ v hv _ => ?_
              have hsv := Course.trans (Course.trans ht hu) hv
              exact ih (fun x hx => hc x (Course.trans hsv hx))
                (fun x hx => hb x (Course.trans hsv hx)) (fun x hx => hi x (Course.trans hsv hx)) (Course.stay hv)

end Watching
end Treewalk
