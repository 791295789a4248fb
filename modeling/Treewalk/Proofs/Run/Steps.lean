import Treewalk.Proofs.Run.Invariant

/-!
# Steps of watched runs

A computation is safe in a state if it leaves a good state behind, however it ends, and does not end
for want of a scope. What is safe step by step is safe.
-/
namespace Treewalk

/-- Nothing was wrong with the scopes. -/
def Interrupt.Fine : Interrupt → Prop
  | .crash (.shortChain _) => False
  | _ => True

/-- A computation keeps a good state good, and if it succeeds, something holds. -/
def Safe {α : Type} (current : Prop) (n : Nat) (p : Watching α) (s : Watched World Event)
    (Q : α → Watched World Event → Prop) : Prop :=
  match p s with
  | .ok a s' => Goes current n s s' ∧ Q a s'
  | .error i s' => Goes current n s s' ∧ i.Fine

/-- Evaluation that changes nothing on which names and functions depend. -/
def Eval.Calm {α : Type} (q : Eval α) : Prop := ∀ w,
  match q w with
  | .ok _ w' => w.Alike w'
  | .error i w' => w.Alike w' ∧ i.Fine

section
variable {α β : Type} {current : Prop} {n m : Nat} {s s' t : Watched World Event}

theorem Good.here (h : Good current n s) : Goes current n s s := ⟨h, .refl n s⟩

theorem Goes.trans (h : Goes current n s s') (h' : Goes current n s' t) : Goes current n s t :=
  ⟨h'.good, h.grows.trans h'.grows⟩

theorem Goes.mono (h : Goes current n s s') (hm : m ≤ n) : Goes current m s s' :=
  ⟨⟨h.good.sane, h.good.told, Nat.le_trans hm h.good.enough⟩, h.grows.mono hm⟩

namespace Safe
variable {p : Watching α} {Q R : α → Watched World Event → Prop}

theorem pure {a : α} (h : Good current n s) (hq : Q a s) :
    Safe current n (Pure.pure a) s Q := ⟨h.here, hq⟩

theorem throw {i : Interrupt} (h : Good current n s) (hi : i.Fine) :
    Safe current n (MonadExcept.throw i) s Q := ⟨h.here, hi⟩

theorem weaken (h : Safe current n p s Q)
    (hq : ∀ a s', Goes current n s s' → Q a s' → R a s') : Safe current n p s R := by
  unfold Safe at h ⊢
  cases hp : p s with
  | ok a s' =>
      simp only [hp] at h ⊢
      exact ⟨h.1, hq a s' h.1 h.2⟩
  | error i s' =>
      simp only [hp] at h ⊢
      exact h

theorem trivially (h : Safe current n p s Q) : Safe current n p s fun _ _ => True :=
  h.weaken fun _ _ _ _ => trivial

/-- Fewer interpreters are not run. -/
theorem mono (h : Safe current n p s Q) (hm : m ≤ n) :
    Safe current m p s fun a s' => Q a s' ∧ Goes current n s s' := by
  unfold Safe at h ⊢
  cases hp : p s with
  | ok a s' =>
      simp only [hp] at h ⊢
      exact ⟨h.1.mono hm, h.2, h.1⟩
  | error i s' =>
      simp only [hp] at h ⊢
      exact ⟨h.1.mono hm, h.2⟩

theorem bind {f : α → Watching β} {R : β → Watched World Event → Prop}
    (h : Safe current n p s Q)
    (hf : ∀ a s', Goes current n s s' → Q a s' → Safe current n (f a) s' R) :
    Safe current n (p >>= f) s R := by
  change match EStateM.bind p f s with
    | .ok a s' => Goes current n s s' ∧ R a s'
    | .error i s' => Goes current n s s' ∧ i.Fine
  unfold Safe at h
  unfold EStateM.bind
  cases hp : p s with
  | error i s' =>
      simp only [hp] at h ⊢
      exact h
  | ok a s' =>
      simp only [hp] at h ⊢
      have hfa := hf a s' h.1 h.2
      unfold Safe at hfa
      cases hf' : f a s' with
      | ok b t =>
          simp only [hf'] at hfa ⊢
          exact ⟨h.1.trans hfa.1, hfa.2⟩
      | error i t =>
          simp only [hf'] at hfa ⊢
          exact ⟨h.1.trans hfa.1, hfa.2⟩

theorem map {f : α → β} {R : β → Watched World Event → Prop} (h : Safe current n p s Q)
    (hq : ∀ a s', Goes current n s s' → Q a s' → R (f a) s') : Safe current n (f <$> p) s R :=
  h.bind fun a s' hg ha => .pure hg.good (hq a s' hg ha)

/-- A look at the world. -/
theorem looking {f : World → Watching α} (h : Safe current n (f s.state) s Q) :
    Safe current n (Watched.look >>= f) s Q := h

/-- A true note of a node. -/
theorem marking {k : Moment} {site : Site} {node : Node} {frames : List Frame}
    (h : Good current n s) (hat : At s site ⟨frames, node⟩)
    (hp : ∀ s', Goes current n s s' → s'.state = s.state →
      .node k site node s.state ∈ s'.notes → Safe current n p s' Q) :
    Safe current n (Watching.mark k site node >>= fun _ => p) s Q := by
  have hmark : Safe current n (Watching.mark k site node) s fun _ s' =>
      s'.state = s.state ∧ .node k site node s.state ∈ s'.notes :=
    ⟨h.noting hat, rfl, List.mem_cons_self ..⟩
  exact hmark.bind fun _ s' hg hs => hp s' hg hs.1 hs.2

/-- Something is done without a note. -/
theorem quietly {q : Eval α}
    (h : match q s.state with
      | .ok a w => Goes current n s ⟨w, s.notes⟩ ∧ Q a ⟨w, s.notes⟩
      | .error i w => Goes current n s ⟨w, s.notes⟩ ∧ i.Fine) :
    Safe current n (Watched.quietly q) s Q := by
  unfold Safe Watched.quietly
  cases hq : q s.state with
  | ok a w =>
      simp only [hq] at h ⊢
      exact h
  | error i w =>
      simp only [hq] at h ⊢
      exact h

theorem calmly {q : Eval α} (h : Good current n s) (hq : q.Calm) :
    Safe current n (Watched.quietly q) s fun a s' =>
      s'.notes = s.notes ∧ q s.state = .ok a s'.state := by
  refine .quietly ?_
  have hw := hq s.state
  cases hr : q s.state with
  | ok a w =>
      rw [hr] at hw
      exact ⟨h.alike hw, rfl, rfl⟩
  | error i w =>
      rw [hr] at hw
      exact ⟨h.alike hw.1, hw.2⟩

theorem mapM {f : α → Watching β} {as : List α}
    (hf : ∀ a ∈ as, ∀ s', Goes current n s s' → Safe current n (f a) s' fun _ _ => True)
    (h : Good current n s) :
    Safe current n (as.mapM f) s fun bs _ => bs.length = as.length := by
  induction as generalizing s with
  | nil => exact .pure h rfl
  | cons a as ih =>
      rw [List.mapM_cons]
      refine (hf a (List.mem_cons_self ..) s h.here).bind fun b s' hg _ => ?_
      have has := ih (s := s') (fun a ha t ht => hf a (List.mem_cons_of_mem _ ha) t (hg.trans ht))
        hg.good
      exact has.bind fun bs t ht hlen => .pure ht.good (by simp only [List.length_cons, hlen])

end Safe

/-! ### Taking interrupts -/

theorem round_safe {body : Watching Unit} (h : Safe current n body s fun _ _ => True) :
    Safe current n (Watching.round body) s fun _ _ => True := by
  unfold Safe at h ⊢
  unfold Watching.round
  cases hb : body s with
  | ok a t =>
      simp only [hb] at h ⊢
      exact h
  | error i t =>
      simp only [hb] at h ⊢
      cases i with
      | signal c =>
          cases c with
          | «return» v => exact h
          | «break» => exact ⟨h.1, trivial⟩
          | «continue» => exact ⟨h.1, trivial⟩
      | _ => exact h

theorem returned_safe {body : Watching Unit} (h : Safe current n body s fun _ _ => True) :
    Safe current n (Watching.returned body) s fun _ _ => True := by
  unfold Safe at h ⊢
  unfold Watching.returned
  cases hb : body s with
  | ok a t =>
      simp only [hb] at h ⊢
      exact h
  | error i t =>
      simp only [hb] at h ⊢
      cases i with
      | signal c =>
          cases c with
          | «return» v => exact ⟨h.1, trivial⟩
          | «break» => exact h
          | «continue» => exact h
      | _ => exact h

theorem atCall_safe {paren : Token} {call : Watching α} {Q : α → Watched World Event → Prop}
    (h : Safe current n call s Q) : Safe current n (Watching.atCall paren call) s Q := by
  unfold Safe at h ⊢
  unfold Watching.atCall
  cases hb : call s with
  | ok a t =>
      simp only [hb] at h ⊢
      exact h
  | error i t =>
      simp only [hb] at h ⊢
      cases i with
      | overflow => exact ⟨h.1, trivial⟩
      | _ => exact h

/-- A loop is safe if its parts are safe in every state that it reaches. -/
theorem loop_safe {condition : Watching Bool} {body increment : Watching Unit} {patience : Nat}
    (hc : ∀ s', Goes current n s s' → Safe current n condition s' fun _ _ => True)
    (hb : ∀ s', Goes current n s s' → Safe current n body s' fun _ _ => True)
    (hi : ∀ s', Goes current n s s' → Safe current n increment s' fun _ _ => True)
    (h : Good current n s) :
    Safe current n (Watching.loop condition body increment patience) s fun _ _ => True := by
  induction patience generalizing s with
  | zero => exact .throw h trivial
  | succ patience ih =>
      refine (hc s h.here).bind fun go t ht _ => ?_
      cases go with
      | false => exact .pure ht.good trivial
      | true =>
          refine (round_safe (hb t ht)).bind fun go u hu _ => ?_
          cases go with
          | false => exact .pure hu.good trivial
          | true =>
              refine (hi u (ht.trans hu)).bind fun _ v hv _ => ?_
              have hsv := (ht.trans hu).trans hv
              exact ih (fun s' hs' => hc s' (hsv.trans hs')) (fun s' hs' => hb s' (hsv.trans hs'))
                (fun s' hs' => hi s' (hsv.trans hs')) hv.good

end
end Treewalk
