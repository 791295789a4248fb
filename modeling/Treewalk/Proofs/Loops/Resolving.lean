import Treewalk.Proofs.Loops.WrittenOut
import Treewalk.Proofs.Loops.Limits

/-!
# Resolving loops written out

Name resolution finds the same declarations in a tree with loops written out, with hops over the
scopes that only this tree has, and reports the same.
-/
namespace Treewalk

/-- A scope of the second resolution: one that the first resolution has as well, in which the initial
value of a name may be being resolved, or an empty one. -/
inductive Slot
  | both (pending : Option String)
  | extra

/-- The scopes of two resolutions, innermost first. -/
structure Layout where
  slots : List Slot := []
  /-- Globals whose initial values may be being resolved. -/
  initializing : List String := []

namespace Slot

/-- What the hops of the first resolution are in the second one. -/
def shift : List Slot → Shift
  | [] => id
  | .both _ :: slots => (shift slots).inside
  | .extra :: slots => (shift slots).under

/-- The innermost scope is complete. -/
def Complete : List Slot → Prop
  | .both pending :: _ => pending = none
  | _ => True

/-- The open scopes of two resolutions. A loop, with which an empty scope comes, stands where no
initial value is being resolved. -/
inductive Frames : List Slot → List StaticScope → List StaticScope → Prop
  | nil : Frames [] [] []
  | both {pending : Option String} {slots : List Slot} {s : StaticScope} {L R : List StaticScope} :
      (∀ x, s.names.find? x = some false → pending = some x) → Frames slots L R →
      Frames (.both pending :: slots) (s :: L) (s :: R)
  | extra {slots : List Slot} {L R : List StaticScope} : Complete slots → Frames slots L R →
      Frames (.extra :: slots) L ({} :: R)

namespace Frames
variable {slots : List Slot} {L R : List StaticScope} (h : Frames slots L R)
include h

theorem hops? (name : String) :
    Scoping.hops? name R = (Scoping.hops? name L).map (shift slots) := by
  induction h with
  | nil => rfl
  | @both _ slots s L R _ _ ih =>
      unfold Scoping.hops?
      by_cases hc : s.names.contains name = true
      · rw [if_pos hc, if_pos hc]
        rfl
      · rw [if_neg hc, if_neg hc, ih, Option.map_map, Option.map_map]
        rfl
  | extra _ _ ih =>
      have hempty : ({} : StaticScope).names.contains name = false := rfl
      rw [Scoping.hops?, hempty, ih, if_neg Bool.false_ne_true, Option.map_map]
      rfl

theorem isConstantIn (name : String) (globals : List String) :
    Scoping.isConstantIn name globals R = Scoping.isConstantIn name globals L := by
  induction h with
  | nil => rfl
  | both _ _ ih =>
      unfold Scoping.isConstantIn
      rw [ih]
  | extra _ _ ih =>
      have hempty : ({} : StaticScope).names.contains name = false := rfl
      rw [Scoping.isConstantIn, hempty, ih, if_neg Bool.false_ne_true]

/-- In a complete scope no name is incomplete. -/
theorem find?_ne (hc : Complete slots) {inner : StaticScope} {outer : List StaticScope}
    (hL : L = inner :: outer) (name : String) : inner.names.find? name ≠ some false := by
  induction h with
  | nil => cases hL
  | both hpending =>
      cases hL
      intro hname
      exact nomatch (hpending name hname).symm.trans hc
  | extra hc' _ ih => exact ih hc' hL

/-- Where the first resolution has no scope, the second one has empty ones only. -/
theorem getLast?_of_nil (hL : L = []) (hR : R ≠ []) : slots.getLast? = some .extra := by
  induction h with
  | nil => exact (hR rfl).elim
  | both => cases hL
  | @extra slots L R _ hframes ih =>
      cases slots with
      | nil => rfl
      | cons slot slots =>
          rw [List.getLast?_cons_cons]
          refine ih hL ?_
          rintro rfl
          cases hframes

end Frames
end Slot

namespace Layout

def shift (l : Layout) : Shift := Slot.shift l.slots

/-- No initial value is being resolved. -/
def Settled (l : Layout) : Prop :=
  Slot.Complete l.slots ∧ (l.slots = [] → l.initializing = [])

/-- A scope that both have, with the names it has from the start. -/
def inside (l : Layout) : Layout := { l with slots := .both none :: l.slots }

/-- A scope that only the second resolution has. -/
def under (l : Layout) : Layout := { l with slots := .extra :: l.slots }

/-- A name is declared whose initial value is resolved next. -/
def declaring (l : Layout) (name : String) : Layout :=
  match l.slots with
  | .both _ :: slots => { l with slots := .both (some name) :: slots }
  | _ => l

/-- In the initial value of a name. -/
def initial (l : Layout) (name : String) : Layout :=
  match l.slots with
  | [] => { l with initializing := name :: l.initializing }
  | _ => l

@[simp] theorem shift_inside (l : Layout) : l.inside.shift = l.shift.inside := rfl

@[simp] theorem shift_under (l : Layout) : l.under.shift = l.shift.under := rfl

@[simp] theorem shift_declaring (l : Layout) (name : String) :
    (l.declaring name).shift = l.shift := by
  unfold shift declaring
  split
  · next h => rw [h]; rfl
  · rfl

@[simp] theorem shift_initial (l : Layout) (name : String) : (l.initial name).shift = l.shift := by
  unfold shift initial
  split <;> rfl

theorem settled_inside (l : Layout) : l.inside.Settled := ⟨rfl, nofun⟩

theorem settled_under (l : Layout) : l.under.Settled := ⟨trivial, nofun⟩

/-- The states of two resolutions. -/
structure Laid (l : Layout) (s s' : Scoping) : Prop where
  scopes : Slot.Frames l.slots s.scopes s'.scopes
  bottom : l.slots.getLast? = some .extra → l.initializing = []
  within : s.initializing ⊆ l.initializing
  initializing : s'.initializing = s.initializing
  globals : s'.globals = s.globals
  constants : s'.globalConstants = s.globalConstants
  function : s'.function = s.function
  classContext : s'.classContext = s.classContext
  inLoop : s'.inLoop = s.inLoop
  notices : s'.notices = s.notices

namespace Laid
variable {l : Layout} {s s' : Scoping} (h : l.Laid s s')
include h

theorem isConstant (name : String) : s'.isConstant name = s.isConstant name := by
  unfold Scoping.isConstant
  rw [h.constants, h.scopes.isConstantIn]

theorem report (token : Token) (error : StaticError) :
    l.Laid (s.report token error) (s'.report token error) := by
  unfold Scoping.report
  rw [h.notices]
  exact { h with notices := rfl }

/-- Where names are declared, the innermost scope is one that both have, if there is any. -/
theorem scopes_of_open (hopen : l.shift 0 = 0) :
    l.slots = [] ∧ s.scopes = [] ∧ s'.scopes = [] ∨
      ∃ pending slots inner L R, l.slots = .both pending :: slots ∧ s.scopes = inner :: L ∧
        s'.scopes = inner :: R ∧ (∀ x, inner.names.find? x = some false → pending = some x) ∧
        Slot.Frames slots L R := by
  have hframes := h.scopes
  unfold shift at hopen
  generalize l.slots = slots, s.scopes = L, s'.scopes = R at hframes hopen
  cases hframes with
  | nil => exact .inl ⟨rfl, rfl, rfl⟩
  | both hpending hframes => exact .inr ⟨_, _, _, _, _, rfl, rfl, rfl, hpending, hframes⟩
  | extra => cases hopen

theorem declare (hopen : l.shift 0 = 0) (hsettled : l.Settled) (token : Token) (name : String) :
    (l.declaring name).Laid (s.declare token name) (s'.declare token name) := by
  have hreport := h.report token .variableRedeclared
  rcases h.scopes_of_open hopen with ⟨hl, hL, hR⟩ |
    ⟨pending, slots, inner, L, R, hl, hL, hR, hpending, hframes⟩
  · have hdeclaring : l.declaring name = l := by
      unfold declaring
      rw [hl]
    unfold Scoping.declare
    rw [hdeclaring, hL, hR, h.constants]
    dsimp only
    split
    · exact h.report token .constantRedeclared
    · exact h
  · obtain rfl : pending = none := by
      have hc := hsettled.1
      rw [hl] at hc
      exact hc
    have hframes' : Slot.Frames (.both (some name) :: slots)
        ({ inner with names := inner.names.insert name false } :: L)
        ({ inner with names := inner.names.insert name false } :: R) := by
      refine .both (fun x hx => ?_) hframes
      rw [Bindings.find?_insert] at hx
      by_cases hname : name = x
      · rw [hname]
      · rw [if_neg hname] at hx
        cases hpending x hx
    have hbottom : (l.declaring name).slots.getLast? = some .extra →
        (l.declaring name).initializing = [] := by
      unfold declaring
      rw [hl]
      intro hlast
      refine h.bottom ?_
      rw [hl]
      cases slots with
      | nil => cases hlast
      | cons slot slots => exact hlast
    have hsame : (l.declaring name).slots = .both (some name) :: slots ∧
        (l.declaring name).initializing = l.initializing := by
      unfold declaring
      rw [hl]
      exact ⟨rfl, rfl⟩
    unfold Scoping.declare
    rw [hL, hR]
    dsimp only
    split
    · exact { hreport with
        scopes := hsame.1 ▸ hframes', bottom := hbottom, within := hsame.2 ▸ h.within }
    · exact { h with
        scopes := hsame.1 ▸ hframes', bottom := hbottom, within := hsame.2 ▸ h.within }

theorem setMutability (hopen : l.shift 0 = 0) (name : String) (mutability : Mutability) :
    l.Laid (s.setMutability name mutability) (s'.setMutability name mutability) := by
  unfold Scoping.setMutability
  rcases h.scopes_of_open hopen with ⟨hl, hL, hR⟩ |
    ⟨pending, slots, inner, L, R, hl, hL, hR, hpending, hframes⟩
  · have hframes := h.scopes
    rw [hL, hR] at hframes ⊢
    rw [h.constants]
    exact { h with scopes := hframes, constants := rfl }
  · rw [hL, hR]
    exact { h with scopes := hl ▸ .both hpending hframes }

/-- A scope that both get. -/
theorem enter (names : List String) : l.inside.Laid (s.enter names) (s'.enter names) := by
  have hbound : ∀ (names : List String) (b : Bindings Bool),
      (∀ x, b.find? x ≠ some false) → ∀ x,
        (names.foldl (fun b name => b.insert name true) b).find? x ≠ some false := by
    intro names
    induction names with
    | nil => exact fun b hb => hb
    | cons name names ih =>
        refine fun b hb => ih _ fun x => ?_
        rw [Bindings.find?_insert]
        by_cases hx : name = x
        · rw [if_pos hx]
          nofun
        · rw [if_neg hx]
          exact hb x
  refine { h with
    scopes := .both (fun x hx => (hbound names {} (fun x => nofun) x hx).elim) h.scopes
    bottom := fun hlast => h.bottom ?_ }
  unfold inside at hlast
  cases hslots : l.slots with
  | nil =>
      rw [hslots] at hlast
      cases hlast
  | cons slot slots =>
      rw [hslots] at hlast
      exact hlast

/-- A scope that only the second one gets. -/
theorem enter_under (hsettled : l.Settled) : l.under.Laid s (s'.enter []) := by
  refine { h with scopes := .extra hsettled.1 h.scopes, bottom := fun hlast => ?_ }
  unfold under at hlast
  cases hslots : l.slots with
  | nil => exact hsettled.2 hslots
  | cons slot slots =>
      rw [hslots] at hlast
      exact h.bottom (hslots ▸ hlast)

end Laid

namespace Laid
variable {l : Layout} {s s' : Scoping}

theorem define {name : String} (h : (l.declaring name).Laid s s') (hopen : l.shift 0 = 0)
    (hsettled : l.Settled) : l.Laid (s.define name) (s'.define name) := by
  unfold declaring at h
  unfold Scoping.define
  cases hslots : l.slots with
  | nil =>
      rw [hslots] at h
      obtain ⟨-, hL, hR⟩ | ⟨_, _, _, _, _, hl, -⟩ := h.scopes_of_open hopen
      · have hframes := h.scopes
        rw [hL, hR] at hframes ⊢
        rw [h.globals]
        exact { h with scopes := hframes, globals := rfl }
      · rw [hslots] at hl
        cases hl
  | cons slot slots =>
      cases slot with
      | extra =>
          unfold shift at hopen
          rw [hslots] at hopen
          cases hopen
      | both pending =>
          obtain rfl : pending = none := by
            have hc := hsettled.1
            rw [hslots] at hc
            exact hc
          rw [hslots] at h
          have hframes := h.scopes
          generalize hL : s.scopes = L at hframes
          generalize hR : s'.scopes = R at hframes
          cases hframes with
          | @both _ _ inner L R hpending hframes =>
              refine { h with scopes := hslots ▸ .both (fun x hx => ?_) hframes, bottom := ?_ }
              · rw [Bindings.find?_insert] at hx
                by_cases hname : name = x
                · rw [if_pos hname] at hx
                  cases hx
                · rw [if_neg hname] at hx
                  exact (hname (Option.some.inj (hpending x hx))).elim
              · intro hlast
                refine h.bottom ?_
                rw [hslots] at hlast
                cases slots with
                | nil => cases hlast
                | cons slot slots => exact hlast

/-- A name is bound that is complete at once. -/
theorem bind (h : l.Laid s s') (hopen : l.shift 0 = 0) (hsettled : l.Settled) (token : Token)
    (name : String) :
    l.Laid ((s.declare token name).define name) ((s'.declare token name).define name) :=
  (h.declare hopen hsettled token name).define hopen hsettled

theorem leave (h : l.inside.Laid s s') : l.Laid s.leave s'.leave := by
  have hframes := h.scopes
  unfold Scoping.leave
  generalize hL : s.scopes = L at hframes
  generalize hR : s'.scopes = R at hframes
  cases hframes with
  | both _ hframes =>
      refine { h with scopes := hframes, bottom := fun hlast => h.bottom ?_ }
      unfold inside
      cases hslots : l.slots with
      | nil =>
          rw [hslots] at hlast
          cases hlast
      | cons slot slots =>
          rw [hslots] at hlast
          exact hlast

theorem leave_under (h : l.under.Laid s s') : l.Laid s s'.leave := by
  have hframes := h.scopes
  unfold Scoping.leave
  generalize hL : s.scopes = L at hframes
  generalize hR : s'.scopes = R at hframes
  cases hframes with
  | extra _ hframes =>
      refine { h with scopes := hL ▸ hframes, bottom := fun hlast => h.bottom ?_ }
      unfold under
      cases hslots : l.slots with
      | nil => rfl
      | cons slot slots =>
          rw [hslots] at hlast
          exact hlast

end Laid
/-- What a use resolves to, and the same with its hops shifted. -/
def Found (l : Layout) (use u u' : NameUse) : Prop := u.name = use.name ∧ u' = u.shift l.shift

/-! ### Two resolutions -/

section
variable {side : Side} {l l' l'' : Layout} {α β γ δ : Type}

/-- Two resolutions end alike, unless the limit stopped one. -/
inductive Ends (side : Side) (l : Layout) (R : α → β → Prop) :
    EStateM.Result Unit Scoping α → EStateM.Result Unit Scoping β → Prop
  | ok {a : α} {b : β} {t t' : Scoping} : R a b → l.Laid t t' → Ends side l R (.ok a t) (.ok b t')
  | cut {r : EStateM.Result Unit Scoping α} {r' : EStateM.Result Unit Scoping β} :
      (match side with
        | .first => ∃ t, r = .error () t
        | .second => ∃ t, r' = .error () t) → Ends side l R r r'

/-- From states that are laid out in one way, two resolutions lead to states that are laid out in
another way. -/
def Resolves (side : Side) (l l' : Layout) (R : α → β → Prop) (p : Resolve α) (q : Resolve β) :
    Prop := ∀ s s', l.Laid s s' → Ends side l' R (p s) (q s')

namespace Resolves
variable {R : α → β → Prop} {S : γ → δ → Prop}

theorem pure {a : α} {b : β} (h : R a b) :
    Resolves side l l R (Pure.pure a : Resolve α) (Pure.pure b : Resolve β) :=
  fun _ _ hs => .ok h hs

theorem bind {p : Resolve α} {q : Resolve β} {f : α → Resolve γ} {g : β → Resolve δ}
    (hp : Resolves side l l' R p q) (hf : ∀ a b, R a b → Resolves side l' l'' S (f a) (g b)) :
    Resolves side l l'' S (p >>= f) (q >>= g) := by
  intro s s' hs
  have hpq := hp s s' hs
  change Ends side l'' S (EStateM.bind p f s) (EStateM.bind q g s')
  unfold EStateM.bind
  generalize p s = r at hpq
  generalize q s' = r' at hpq
  cases hpq with
  | ok hab ht => exact hf _ _ hab _ _ ht
  | cut hc =>
      apply Ends.cut
      cases side with
      | first =>
          obtain ⟨t, rfl⟩ := hc
          exact ⟨t, rfl⟩
      | second =>
          obtain ⟨t, rfl⟩ := hc
          exact ⟨t, rfl⟩

theorem weaken {R R' : α → β → Prop} {p : Resolve α} {q : Resolve β}
    (h : Resolves side l l' R p q) (hR : ∀ a b, R a b → R' a b) : Resolves side l l' R' p q := by
  intro s s' hs
  have hpq := h s s' hs
  generalize p s = r at hpq
  generalize q s' = r' at hpq
  cases hpq with
  | ok hab ht => exact .ok (hR _ _ hab) ht
  | cut hc => exact .cut hc

/-- More is made of the second result. -/
theorem mapRight {R : α → β → Prop} {S : α → γ → Prop} {p : Resolve α} {q : Resolve β} {g : β → γ}
    (h : Resolves side l l' R p q) (hg : ∀ a b, R a b → S a (g b)) :
    Resolves side l l' S p (q >>= fun b => Pure.pure (g b)) := by
  rw [← bind_pure p]
  exact h.bind fun a b hab => pure (hg a b hab)

theorem getting {f : Scoping → Resolve α} {g : Scoping → Resolve β}
    (h : ∀ s s', l.Laid s s' → Resolves side l l' R (f s) (g s')) :
    Resolves side l l' R (get >>= f) (get >>= g) := fun s s' hs => h s s' hs s s' hs

/-- What depends on the state, in this state. -/
theorem here {f : Scoping → Resolve α} {g : Scoping → Resolve β}
    (h : ∀ s s', l.Laid s s' → Ends side l' R (f s s) (g s' s')) :
    Resolves side l l' R (get >>= f) (get >>= g) := h

theorem step {f g : Scoping → Scoping} (h : ∀ s s', l.Laid s s' → l'.Laid (f s) (g s')) :
    Resolves side l l' Eq (modify f) (modify g) := fun s s' hs => .ok rfl (h s s' hs)

/-- The limit stops a resolution at once. -/
theorem stopped {p : Resolve α} {q : Resolve β} (h : match side with
    | .first => p = MonadExcept.throw ()
    | .second => q = MonadExcept.throw ()) : Resolves side l l' R p q := by
  intro s s' _
  apply Ends.cut
  cases side with
  | first =>
      rw [h]
      exact ⟨s, rfl⟩
  | second =>
      rw [h]
      exact ⟨s', rfl⟩

/-- The second resolution has a level at least, or it is stopped. -/
theorem level {m : Nat} {q : Nat → Resolve β} (hzero : ∀ s, ∃ t, q 0 s = .error () t)
    (hfirst : side = .first → 0 < m) (h : ∀ k, m = k + 1 → Resolves side l l' R p (q m)) :
    Resolves side l l' R p (q m) := by
  cases m with
  | zero =>
      cases side with
      | first => exact (Nat.lt_irrefl 0 (hfirst rfl)).elim
      | second => exact fun s s' _ => .cut (hzero s')
  | succ k => exact h k rfl

/-! ### Scopes and surroundings -/

theorem inScope {names : List String} {p : Resolve α} {q : Resolve β}
    (h : Resolves side l.inside l.inside R p q) :
    Resolves side l l R (Resolve.inScope names p) (Resolve.inScope names q) :=
  (step fun _ _ hs => hs.enter names).bind fun _ _ _ => h.bind fun _ _ hab =>
    (step fun _ _ hs => hs.leave).bind fun _ _ _ => pure hab

/-- What the second resolution does in a scope more. -/
theorem inScope_under {p : Resolve α} {q : Resolve β} (hsettled : l.Settled)
    (h : Resolves side l.under l.under R p q) :
    Resolves side l l R p (Resolve.inScope [] q) := by
  intro s s' hs
  have hpq := h s (s'.enter []) (hs.enter_under hsettled)
  change Ends side l R (p s) (EStateM.bind q _ (s'.enter []))
  unfold EStateM.bind
  generalize p s = r at hpq
  generalize q (s'.enter []) = r' at hpq
  cases hpq with
  | ok hab ht => exact .ok hab ht.leave_under
  | cut hc =>
      apply Ends.cut
      cases side with
      | first => exact hc
      | second =>
          obtain ⟨t, rfl⟩ := hc
          exact ⟨t, rfl⟩

/-- What stands between a change of the surroundings and the change back. -/
theorem around (enter : Scoping → Scoping) (leave : Scoping → Scoping → Scoping) {p : Resolve α}
    {q : Resolve β} (h : Resolves side l' l' R p q)
    (henter : ∀ s s', l.Laid s s' → l'.Laid (enter s) (enter s'))
    (hleave : ∀ s s' t t', l.Laid s s' → l'.Laid t t' → l.Laid (leave s t) (leave s' t')) :
    Resolves side l l R (do
      let before ← get
      modify enter
      let a ← p
      modify (leave before)
      return a) (do
      let before ← get
      modify enter
      let b ← q
      modify (leave before)
      return b) := by
  intro s s' hs
  have hpq := h _ _ (henter s s' hs)
  change Ends side l R (EStateM.bind p _ (enter s)) (EStateM.bind q _ (enter s'))
  unfold EStateM.bind
  generalize p (enter s) = r at hpq
  generalize q (enter s') = r' at hpq
  cases hpq with
  | ok hab ht => exact .ok hab (hleave _ _ _ _ hs ht)
  | cut hc =>
      apply Ends.cut
      cases side with
      | first =>
          obtain ⟨t, rfl⟩ := hc
          exact ⟨t, rfl⟩
      | second =>
          obtain ⟨t, rfl⟩ := hc
          exact ⟨t, rfl⟩

theorem inFunction {context : FunctionContext} {p : Resolve α} {q : Resolve β}
    (h : Resolves side l l R p q) :
    Resolves side l l R (Resolve.inFunction context p) (Resolve.inFunction context q) :=
  around _ _ h (fun _ _ hs => { hs with function := rfl, inLoop := rfl })
    fun _ _ _ _ hs ht => { ht with function := hs.function, inLoop := hs.inLoop }

theorem inLoop {p : Resolve α} {q : Resolve β} (h : Resolves side l l R p q) :
    Resolves side l l R (Resolve.inLoop p) (Resolve.inLoop q) :=
  around _ _ h (fun _ _ hs => { hs with inLoop := rfl })
    fun _ _ _ _ hs ht => { ht with inLoop := hs.inLoop }

theorem inClass {context : ClassContext} {p : Resolve α} {q : Resolve β}
    (h : Resolves side l l R p q) :
    Resolves side l l R (Resolve.inClass context p) (Resolve.inClass context q) :=
  around _ _ h (fun _ _ hs => { hs with classContext := rfl })
    fun _ _ _ _ hs ht => { ht with classContext := hs.classContext }

/-- A value that is resolved while its name is declared. -/
theorem initializing {name : String} (hopen : l.shift 0 = 0) {p : Resolve α} {q : Resolve β}
    (h : Resolves side (l.initial name) (l.initial name) R p q) :
    Resolves side l l R (Resolve.initializing name p) (Resolve.initializing name q) := by
  rw [Visiting.initializing_eq, Visiting.initializing_eq]
  obtain ⟨slots, globals⟩ := l
  refine around _ _ h (fun s s' hs => ?_) fun s s' t t' hs ht => ?_
  · rcases hs.scopes_of_open hopen with ⟨hl, hL, hR⟩ |
      ⟨pending, slots, inner, L, R, hl, hL, hR, -⟩
    · obtain rfl : slots = [] := hl
      have hwithin : s.initializing.insert name ⊆ name :: globals := by
        intro x hx
        exact (List.mem_insert_iff.mp hx).elim (fun hx => hx ▸ List.mem_cons_self ..)
          fun hx => List.mem_cons_of_mem _ (hs.within hx)
      have hframes := hs.scopes
      rw [hL, hR] at hframes ⊢
      exact { hs with
        scopes := hframes
        bottom := nofun
        within := hwithin
        initializing := congrArg (List.insert name) hs.initializing }
    · cases hl
      rw [hL, hR]
      exact hs
  · have hsame := congrArg (List.filter (· ≠ name)) ht.initializing
    cases slots with
    | nil =>
        refine { ht with bottom := nofun, within := fun x hx => ?_, initializing := hsame }
        obtain ⟨hx, hne⟩ := List.mem_filter.mp hx
        exact (List.mem_cons.mp (ht.within hx)).resolve_left (by simpa using hne)
    | cons slot slots =>
        exact { ht with
          within := fun x hx => ht.within (List.mem_filter.mp hx).1
          initializing := hsame }

/-! ### Names and checks -/

theorem report (token : Token) (error : StaticError) :
    Resolves side l l Eq (Resolve.report token error) (Resolve.report token error) :=
  step fun _ _ hs => hs.report token error

/-- An error is reported if a condition holds, and resolution goes on. -/
theorem checking {c c' : Scoping → Prop} [DecidablePred c] [DecidablePred c'] {p : Resolve α}
    {q : Resolve β} {token : Token} {error : StaticError}
    (hc : ∀ s s', l.Laid s s' → (c' s' ↔ c s)) (h : Resolves side l l' R p q) :
    Resolves side l l' R
      (get >>= fun s => if c s then Resolve.report token error >>= fun _ => p else p)
      (get >>= fun s => if c' s then Resolve.report token error >>= fun _ => q else q) := by
  refine getting fun s s' hs => ?_
  by_cases hcs : c s
  · rw [if_pos hcs, if_pos ((hc s s' hs).mpr hcs)]
    exact (report token error).bind fun _ _ _ => h
  · rw [if_neg hcs, if_neg (mt (hc s s' hs).mp hcs)]
    exact h

theorem bindName (hopen : l.shift 0 = 0) (hsettled : l.Settled) (token : Token) (name : String) :
    Resolves side l l Eq (Resolve.bind token name) (Resolve.bind token name) :=
  step fun _ _ hs => hs.bind hopen hsettled token name

/-- A use that is found, and the same use with its hops shifted. -/
theorem record (form : UseForm) {use : NameUse} {hops hops' : Nat} (hhops : hops' = l.shift hops) :
    Resolves side l l (l.Found use) (Resolve.record form use hops)
      (Resolve.record form use hops') := by
  intro s s' hs
  subst hhops
  exact .ok ⟨rfl, rfl⟩ { hs with }

section
variable {use : NameUse} (hraw : use.hops = none)
include hraw

theorem unresolved :
    Resolves side l l (l.Found use) (Pure.pure use : Resolve NameUse)
      (Pure.pure use : Resolve NameUse) := pure ⟨rfl, (NameUse.shift_of_none hraw).symm⟩

theorem lookUp (form : UseForm) :
    Resolves side l l (l.Found use) (Resolve.lookUp form use)
      (Resolve.lookUp form use) := by
  refine getting fun s s' hs => ?_
  rw [hs.scopes.hops?]
  cases Scoping.hops? use.name.lexeme s.scopes with
  | some hops => exact record form rfl
  | none => exact unresolved hraw

theorem readOuter {pending : Option String} {slots : List Slot} (hl : l.slots = .both pending :: slots)
    {L R : List StaticScope} (hframes : Slot.Frames slots L R) :
    Resolves side l l (l.Found use) (Resolve.readOuter use L)
      (Resolve.readOuter use R) := by
  unfold Resolve.readOuter
  dsimp only
  rw [hframes.hops?]
  cases Scoping.hops? use.name.lexeme L with
  | some hops =>
      refine record .read ?_
      unfold shift
      rw [hl]
      rfl
  | none =>
      refine getting fun s s' hs => ?_
      rw [hs.globals]
      by_cases hknown : use.name.lexeme ∈ s.globals
      · rw [if_pos hknown]
        refine Resolves.bind (R := Eq) (step fun t t' ht => ?_) fun _ _ _ => unresolved hraw
        rw [ht.notices]
        exact { ht with notices := rfl }
      · rw [if_neg hknown]
        exact (report use.name .ownInitializer).bind fun _ _ _ => unresolved hraw

theorem read :
    Resolves side l l (l.Found use) (Resolve.read use)
      (Resolve.read use) := by
  refine here fun s s' hs => ?_
  have hlookUps : Resolves side l l (l.Found use) (Resolve.lookUp .read use)
      (Resolve.lookUp .read use) := lookUp hraw .read
  have hlookUp := hlookUps s s' hs
  have hframes := hs.scopes
  generalize hslots : l.slots = slots at hframes
  generalize hL : s.scopes = L at hframes
  generalize hR : s'.scopes = R at hframes
  cases hframes with
  | nil =>
      rw [hs.initializing, hs.globals]
      dsimp only
      by_cases hinit : use.name.lexeme ∈ s.initializing ∧ use.name.lexeme ∉ s.globals
      · rw [if_pos hinit]
        exact (report use.name .ownInitializer).bind (fun _ _ _ => unresolved hraw) s s' hs
      · rw [if_neg hinit]
        exact unresolved hraw s s' hs
  | @both pending slots inner L R hpending hframes =>
      dsimp only
      by_cases hbegun : inner.names.find? use.name.lexeme = some false
      · simp only [hbegun, if_true]
        exact readOuter hraw hslots hframes s s' hs
      · simp only [hbegun, if_false]
        exact hlookUp
  | @extra slots L R hcomplete hframes =>
      have hempty : ({} : StaticScope).names.find? use.name.lexeme ≠ some false := nofun
      dsimp only
      rw [if_neg hempty]
      cases L with
      | nil =>
          -- All open scopes are empty ones, and no global is being initialized.
          have hlast := hs.scopes.getLast?_of_nil hL (hR ▸ List.cons_ne_nil _ _)
          have hnone : use.name.lexeme ∉ s.initializing := by
            intro hmem
            have hwithin := hs.within hmem
            rw [hs.bottom hlast] at hwithin
            cases hwithin
          dsimp only
          rw [if_neg fun h => hnone h.1]
          have hread : Resolve.lookUp .read use s = .ok use s := by
            unfold Resolve.lookUp
            rw [Watched.get_bind, hL]
            rfl
          rwa [hread] at hlookUp
      | cons inner outer =>
          dsimp only
          rw [if_neg (hframes.find?_ne hcomplete rfl _)]
          exact hlookUp

end

theorem checkSuper (keyword : Token) :
    Resolves side l l Eq (Resolve.checkSuper keyword) (Resolve.checkSuper keyword) := by
  refine getting fun s s' hs => ?_
  rw [hs.classContext]
  cases s.classContext with
  | derived => exact pure rfl
  | _ => exact report _ _

theorem checkReturn (keyword : Token) :
    Resolves side l l Eq (Resolve.checkReturn keyword) (Resolve.checkReturn keyword) := by
  refine getting fun s s' hs => ?_
  rw [hs.function]
  split
  · exact report _ _
  · exact pure rfl

theorem checkFieldWrite {f : Shift} {e e' : Expr} (he : Expr.WrittenOut f e e') (name : Token) :
    Resolves side l l Eq (Resolve.checkFieldWrite e name) (Resolve.checkFieldWrite e' name) := by
  unfold Resolve.checkFieldWrite
  cases he with
  | name use =>
      refine getting fun s s' hs => ?_
      rw [NameUse.name_shift, hs.isConstant]
      split
      · exact report _ _
      · exact pure rfl
  | _ => exact pure rfl

end Resolves

/-! ### Trees -/

/-- Trees with loops written out are resolved to trees with loops written out. -/
structure LevelResolves (side : Side) (n m : Nat) : Prop where
  expression : ∀ {l : Layout} {e e' : Expr}, (Node.expr e).Unresolved →
    Expr.WrittenOut l.shift e e' →
    Resolves side l l (Expr.WrittenOut l.shift) (Resolve.expression n e) (Resolve.expression m e')
  statement : ∀ {l : Layout} {j : Jumps} {s s' : Stmt}, (Node.stmt s).Unresolved → l.Settled →
    Stmt.WrittenOut j l.shift s s' →
    Resolves side l l (Stmt.WrittenOut j l.shift) (Resolve.statement n s) (Resolve.statement m s')
  method : ∀ {l : Layout} {d d' : FunctionDecl}, (Node.function d).Unresolved →
    FunctionDecl.WrittenOut l.shift.inside d d' →
    Resolves side l l (FunctionDecl.WrittenOut l.shift.inside) (Resolve.method n d)
      (Resolve.method m d')
  functionBody : ∀ {l : Layout} {d d' : FunctionDecl} (context : FunctionContext),
    (Node.function d).Unresolved → FunctionDecl.WrittenOut l.shift.inside d d' →
    Resolves side l l (fun r r' => r.name = d.name ∧ FunctionDecl.WrittenOut l.shift.inside r r')
      (Resolve.functionBody n context d) (Resolve.functionBody m context d')

namespace LevelResolves
variable {n m : Nat}

theorem expressions (ih : LevelResolves side n m) {es es' : List Expr}
    (hraw : ∀ e ∈ es, (Node.expr e).Unresolved) (he : ExprsWrittenOut l.shift es es') :
    Resolves side l l (ExprsWrittenOut l.shift) (es.mapM (Resolve.expression n))
      (es'.mapM (Resolve.expression m)) := by
  induction es generalizing es' with
  | nil =>
      cases he
      exact .pure .nil
  | cons e es ihes =>
      cases he with
      | cons he hes =>
          obtain ⟨hraw, hraws⟩ := List.forall_mem_cons.mp hraw
          rw [List.mapM_cons, List.mapM_cons]
          exact (ih.expression hraw he).bind fun _ _ h => (ihes hraws hes).bind fun _ _ hs =>
            .pure (.cons h hs)

theorem optional (ih : LevelResolves side n m) {e e' : Option Expr}
    (hraw : ∀ x ∈ e.toList, (Node.expr x).Unresolved)
    (he : ExprsWrittenOut l.shift e.toList e'.toList) :
    Resolves side l l (fun e e' => ExprsWrittenOut l.shift e.toList e'.toList)
      (e.mapM (Resolve.expression n)) (e'.mapM (Resolve.expression m)) := by
  cases he.option with
  | none => exact .pure .nil
  | @some e e' hv =>
      exact (ih.expression (hraw e (List.mem_singleton_self e)) hv).bind fun _ _ h =>
        .pure (.cons h .nil)

theorem optionalStmt (ih : LevelResolves side n m) {j : Jumps} {s s' : Option Stmt}
    (hraw : ∀ x ∈ s.toList, (Node.stmt x).Unresolved) (hsettled : l.Settled)
    (hs : StmtsWrittenOut j l.shift s.toList s'.toList) :
    Resolves side l l (fun s s' => StmtsWrittenOut j l.shift s.toList s'.toList)
      (s.mapM (Resolve.statement n)) (s'.mapM (Resolve.statement m)) := by
  cases hs.option with
  | none => exact .pure .nil
  | @some s s' hst =>
      exact (ih.statement (hraw s (List.mem_singleton_self s)) hsettled hst).bind fun _ _ h =>
        .pure (.cons h .nil)

/-- The initial value of a variable, between the two parts of its declaration. -/
theorem initial (ih : LevelResolves side n m) {mutability : Mutability} {name : Token}
    {e e' : Option Expr} (hraw : (Node.stmt (.var mutability name e)).Unresolved)
    (hopen : l.shift 0 = 0) (he : ExprsWrittenOut l.shift e.toList e'.toList) :
    Resolves side (l.declaring name.lexeme) (l.declaring name.lexeme)
      (fun e e' => ExprsWrittenOut l.shift e.toList e'.toList)
      (e.mapM fun e => Resolve.initializing name.lexeme (Resolve.expression n e))
      (e'.mapM fun e => Resolve.initializing name.lexeme (Resolve.expression m e)) := by
  cases he.option with
  | none => exact .pure .nil
  | some hv =>
      have hshift : ((l.declaring name.lexeme).initial name.lexeme).shift = l.shift := by
        rw [shift_initial, shift_declaring]
      have hvalue := ih.expression (hraw.inward [] .initial) (hshift.symm ▸ hv)
      rw [hshift] at hvalue
      exact (Resolves.initializing (by rwa [shift_declaring]) hvalue).bind fun _ _ h =>
        .pure (.cons h .nil)

theorem statements (ih : LevelResolves side n m) {j : Jumps} {ss ss' : List Stmt}
    (hraw : ∀ s ∈ ss, (Node.stmt s).Unresolved) (hsettled : l.Settled)
    (hs : StmtsWrittenOut j l.shift ss ss') :
    Resolves side l l (StmtsWrittenOut j l.shift) (ss.mapM (Resolve.statement n))
      (ss'.mapM (Resolve.statement m)) := by
  induction ss generalizing ss' with
  | nil =>
      cases hs
      exact .pure .nil
  | cons s ss ihss =>
      cases hs with
      | cons hs hss =>
          obtain ⟨hraw, hraws⟩ := List.forall_mem_cons.mp hraw
          rw [List.mapM_cons, List.mapM_cons]
          exact (ih.statement hraw hsettled hs).bind fun _ _ h =>
            (ihss hraws hss).bind fun _ _ hs => .pure (.cons h hs)

theorem methods (ih : LevelResolves side n m) {ds ds' : List FunctionDecl}
    (hraw : ∀ d ∈ ds, (Node.function d).Unresolved)
    (hd : FunctionsWrittenOut l.shift.inside ds ds') :
    Resolves side l l (FunctionsWrittenOut l.shift.inside) (ds.mapM (Resolve.method n))
      (ds'.mapM (Resolve.method m)) := by
  induction ds generalizing ds' with
  | nil =>
      cases hd
      exact .pure .nil
  | cons d ds ihds =>
      cases hd with
      | cons hd hds =>
          obtain ⟨hraw, hraws⟩ := List.forall_mem_cons.mp hraw
          rw [List.mapM_cons, List.mapM_cons]
          exact (ih.method hraw hd).bind fun _ _ h => (ihds hraws hds).bind fun _ _ hs =>
            .pure (.cons h hs)

theorem expression_succ (ih : LevelResolves side n m) {e e' : Expr}
    (hraw : (Node.expr e).Unresolved) (he : Expr.WrittenOut l.shift e e') :
    Resolves side l l (Expr.WrittenOut l.shift) (Resolve.expression (n + 1) e)
      (Resolve.expression (m + 1) e') := by
  have hpart : ∀ {a : Expr}, Node.expr a ∈ e.parts → (Node.expr a).Unresolved :=
    fun h => hraw.inward [] (.part h)
  unfold Resolve.expression
  cases he with
  | literal value => exact .pure (.literal value)
  | grouping he =>
      exact (ih.expression (hpart (by simp [Expr.parts])) he).bind fun _ _ h => .pure (.grouping h)
  | name use =>
      have hhops := hraw.here.2 use rfl
      rw [NameUse.shift_of_none hhops]
      exact (Resolves.read hhops).bind fun u _ h => .pure (h.2 ▸ .name u)
  | @assign _ use _ _ hname he =>
      have hhops := hraw.here.2 use rfl
      rw [NameUse.shift_of_none hhops]
      refine (ih.expression (hpart (by simp [Expr.parts])) he).bind fun v v' hv => ?_
      refine .checking (fun s s' hs => by rw [hs.isConstant]) ?_
      refine (Resolves.lookUp hhops .assign).bind fun u _ h => .pure ?_
      rw [h.2]
      exact .assign (h.1 ▸ hname) hv
  | unary he =>
      exact (ih.expression (hpart (by simp [Expr.parts])) he).bind fun _ _ h => .pure (.unary h)
  | binary ha hb =>
      exact (ih.expression (hpart (by simp [Expr.parts])) ha).bind fun _ _ h =>
        (ih.expression (hpart (by simp [Expr.parts])) hb).bind fun _ _ h' => .pure (.binary h h')
  | logical ha hb =>
      exact (ih.expression (hpart (by simp [Expr.parts])) ha).bind fun _ _ h =>
        (ih.expression (hpart (by simp [Expr.parts])) hb).bind fun _ _ h' => .pure (.logical h h')
  | call hcallee hes =>
      refine (ih.expression (hpart (by simp [Expr.parts])) hcallee).bind fun _ _ h => ?_
      have hraws := fun e he => hpart (a := e) (List.mem_cons_of_mem _ (List.mem_map_of_mem he))
      exact (ih.expressions hraws hes).bind fun _ _ hs => .pure (.call h hs)
  | get he =>
      exact (ih.expression (hpart (by simp [Expr.parts])) he).bind fun _ _ h => .pure (.get h)
  | set hname ha hb =>
      refine (ih.expression (hpart (by simp [Expr.parts])) hb).bind fun _ _ hv => ?_
      refine (Resolves.checkFieldWrite ha _).bind fun _ _ _ => ?_
      exact (ih.expression (hpart (by simp [Expr.parts])) ha).bind fun _ _ ho =>
        .pure (.set hname ho hv)
  | this use =>
      have hhops := hraw.here.2 use rfl
      rw [NameUse.shift_of_none hhops]
      refine .getting fun s s' hs => ?_
      rw [hs.classContext]
      have hthis : Expr.WrittenOut l.shift (.this use) (.this use) := by
        have h := Expr.WrittenOut.this (f := l.shift) use
        rwa [NameUse.shift_of_none hhops] at h
      split
      · exact (Resolves.report use.name _).bind fun _ _ _ => .pure hthis
      · exact (Resolves.lookUp hhops .this).bind fun u _ h => .pure (h.2 ▸ .this u)
  | super use method =>
      have hhops := hraw.here.2 use rfl
      rw [NameUse.shift_of_none hhops]
      exact (Resolves.checkSuper use.name).bind fun _ _ _ =>
        (Resolves.lookUp hhops .super).bind fun u _ h => .pure (h.2 ▸ .super u method)
  | @lambda _ d _ hd =>
      have hmem : Node.function d ∈ (Expr.lambda d).parts := List.mem_singleton_self _
      exact (ih.functionBody .lambda (hraw.inward [] (.part hmem)) hd).bind fun _ _ h =>
        .pure (.lambda h.2)

theorem functionBody_succ (ih : LevelResolves side n m) (context : FunctionContext)
    {d d' : FunctionDecl} (hraw : (Node.function d).Unresolved)
    (hd : FunctionDecl.WrittenOut l.shift.inside d d') :
    Resolves side l l (fun r r' => r.name = d.name ∧ FunctionDecl.WrittenOut l.shift.inside r r')
      (Resolve.functionBody (n + 1) context d) (Resolve.functionBody (m + 1) context d') := by
  cases hd with
  | @mk _ name parameters ss ss' hwords hss =>
      have hparameters : ∀ ps : List Token, Resolves side l.inside l.inside Eq
          (ps.forM fun p => Resolve.bind p p.lexeme) (ps.forM fun p => Resolve.bind p p.lexeme) := by
        intro ps
        induction ps with
        | nil => exact .pure rfl
        | cons p ps ihps =>
            exact (Resolves.bindName rfl l.settled_inside p p.lexeme).bind fun _ _ _ => ihps
      have hraws : ∀ s ∈ ss, (Node.stmt s).Unresolved := by
        intro s hs
        obtain ⟨before, after, rfl⟩ := List.append_of_mem hs
        exact hraw.inward [] (.body rfl)
      unfold Resolve.functionBody
      refine .inFunction (.inScope ((hparameters parameters).bind fun _ _ _ => ?_))
      exact (ih.statements hraws l.settled_inside hss).bind fun _ _ h => .pure ⟨rfl, .mk hwords h⟩

end LevelResolves

/-- A loop, and one that has its increment in its body. -/
inductive Spelled (f : Shift) : Stmt → Stmt → Prop
  | intro {c c' : Expr} {s s' : Stmt} {e e' : Option Expr} : Expr.WrittenOut f c c' →
      Stmt.WrittenOut .break f.under s s' → ExprsWrittenOut f.under e.toList e'.toList →
      Spelled f (.while c s e) (.while c' (.block (s' :: e'.toList.map .expression)) none)

section Spelling
variable {n m k : Nat} (ih : ∀ k, side.Fits n k → LevelResolves side n k)
include ih

/-- The increment of a loop, which is the last statement of the body in the second tree. -/
theorem resolves_increment (hpos : side = .first → 0 < k) (hfits : ∀ i, k = i + 1 → side.Fits n i)
    {e e' : Option Expr} (hraw : ∀ x ∈ e.toList, (Node.expr x).Unresolved)
    (he : ExprsWrittenOut l.shift e.toList e'.toList) :
    Resolves side l l (fun i ss => ∃ i' : Option Expr, ss = i'.toList.map .expression ∧
        ExprsWrittenOut l.shift i.toList i'.toList)
      (e.mapM (Resolve.expression n))
      ((e'.toList.map Stmt.expression).mapM (Resolve.statement k)) := by
  cases he.option with
  | none => exact .pure ⟨none, rfl, .nil⟩
  | @some e e' hv =>
      refine .level (q := fun k => [Stmt.expression e'].mapM (Resolve.statement k))
        (fun s => ⟨s, rfl⟩) hpos fun i hi => ?_
      subst hi
      have hexpression := (ih i (hfits i rfl)).expression (hraw e (List.mem_singleton_self e)) hv
      have hright : [Stmt.expression e'].mapM (Resolve.statement (i + 1)) =
          Resolve.expression i e' >>= fun v => pure [.expression v] := by
        simp only [List.mapM_cons, List.mapM_nil, Resolve.statement, bind_assoc, pure_bind]
      have hleft : (some e).mapM (Resolve.expression n) =
          Resolve.expression n e >>= fun v => pure (some v) := rfl
      rw [hright, hleft]
      exact hexpression.bind fun v v' hv => .pure ⟨some v', rfl, .cons hv .nil⟩

/-- A loop whose increment is written out, in a scope that both have or one of its own. -/
theorem resolves_spelled (hfits : side.Fits n m) (hin : side.Inside n m) (hsettled : l.Settled)
    {c c' : Expr} {s s' : Stmt} {e e' : Option Expr}
    (hraw : (Node.stmt (.while c s e)).Unresolved) (hc : Expr.WrittenOut l.shift c c')
    (hs : Stmt.WrittenOut .break l.shift.under s s')
    (he : ExprsWrittenOut l.shift.under e.toList e'.toList) :
    Resolves side l l (Spelled l.shift) (Resolve.statement (n + 1) (.while c s e))
      (Resolve.statement (m + 1)
        (.while c' (.block (s' :: e'.toList.map .expression)) none)) := by
  have hpart : ∀ {q : Node}, q ∈ (Stmt.while c s e).parts → q.Unresolved :=
    fun h => hraw.inward [] (.part h)
  have hincrements : ∀ x ∈ e.toList, (Node.expr x).Unresolved := fun x hx =>
    hpart (List.mem_cons_of_mem _ (List.mem_cons_of_mem _ (List.mem_map_of_mem hx)))
  have hbody : Resolves side l l
      (fun (bi : Stmt × Option Expr) (t' : Stmt) => ∃ (b' : Stmt) (i' : Option Expr),
        t' = .block (b' :: i'.toList.map .expression) ∧
        Stmt.WrittenOut .break l.shift.under bi.1 b' ∧
        ExprsWrittenOut l.shift.under bi.2.toList i'.toList)
      (do
        let b ← Resolve.statement n s
        let i ← e.mapM (Resolve.expression n)
        return (b, i))
      (Resolve.statement m (.block (s' :: e'.toList.map .expression))) := by
    refine .level (q := fun m => Resolve.statement m (.block (s' :: e'.toList.map .expression)))
      (fun s => ⟨s, rfl⟩) hin.pos fun k hk => ?_
    subst hk
    have hstatement := (ih k hin.fits).statement
      (hpart (List.mem_cons_of_mem _ (List.mem_cons_self ..))) l.settled_under hs
    have hincrement := resolves_increment (l := l.under) ih hin.pos_pred
      (fun i hi => (hi ▸ hin).fits_pred) hincrements he
    have hblock : Resolve.statement (k + 1) (.block (s' :: e'.toList.map .expression)) =
        Resolve.inScope [] ((s' :: e'.toList.map .expression).mapM (Resolve.statement k)) >>=
          fun ss => pure (.block ss) := by
      simp only [Resolve.statement]
    rw [hblock]
    refine Resolves.mapRight (R := fun (bi : Stmt × Option Expr) (ss : List Stmt) =>
      ∃ (b' : Stmt) (i' : Option Expr), ss = b' :: i'.toList.map .expression ∧
        Stmt.WrittenOut .break l.shift.under bi.1 b' ∧
        ExprsWrittenOut l.shift.under bi.2.toList i'.toList) (.inScope_under hsettled ?_) ?_
    · rw [List.mapM_cons]
      refine hstatement.bind fun b b' hb => hincrement.bind fun i ss hi => ?_
      obtain ⟨i', rfl, hi⟩ := hi
      exact .pure ⟨b', i', rfl, hb, hi⟩
    · rintro bi ss ⟨b', i', rfl, hb, hi⟩
      exact ⟨b', i', rfl, hb, hi⟩
  have hleft : Resolve.statement (n + 1) (.while c s e) = Resolve.inLoop (do
      let c ← Resolve.expression n c
      let bi ← (do
        let b ← Resolve.statement n s
        let i ← e.mapM (Resolve.expression n)
        return (b, i))
      return .while c bi.1 bi.2) := by
    simp only [Resolve.statement, bind_assoc, pure_bind]
  have hright : Resolve.statement (m + 1)
      (.while c' (.block (s' :: e'.toList.map .expression)) none) = Resolve.inLoop (do
      let c ← Resolve.expression m c'
      let b ← Resolve.statement m (.block (s' :: e'.toList.map .expression))
      return .while c b none) := by
    simp only [Resolve.statement, Option.mapM_none, pure_bind]
  rw [hleft, hright]
  refine .inLoop (((ih m hfits).expression (hpart (List.mem_cons_self ..)) hc).bind
    fun c c' hc => hbody.bind fun bi t' hbi => ?_)
  obtain ⟨b', i', rfl, hb, hi⟩ := hbi
  exact .pure (.intro hc hb hi)

/-- A loop in a block of its own that is written for one without. -/
theorem resolves_wrapped (hfits : side.Fits (n + 1) (m + 1)) (hsettled : l.Settled)
    {c c' : Expr} {s s' : Stmt} {e e' : Option Expr} {j : Jumps}
    (hraw : (Node.stmt (.while c s e)).Unresolved) (hc : Expr.WrittenOut l.shift.under c c')
    (hs : Stmt.WrittenOut .break l.shift.under.under s s')
    (he : ExprsWrittenOut l.shift.under.under e.toList e'.toList) :
    Resolves side l l (Stmt.WrittenOut j l.shift) (Resolve.statement (n + 1) (.while c s e))
      (Resolve.statement (m + 1)
        (.block [.while c' (.block (s' :: e'.toList.map .expression)) none])) := by
  have hblock : Resolve.statement (m + 1)
      (.block [.while c' (.block (s' :: e'.toList.map .expression)) none]) =
      Resolve.inScope [] (Resolve.statement m
        (.while c' (.block (s' :: e'.toList.map .expression)) none) >>=
          fun t => pure [t]) >>= fun ss => pure (.block ss) := by
    simp only [Resolve.statement, List.mapM_cons, List.mapM_nil, pure_bind]
  rw [hblock]
  refine Resolves.mapRight (R := fun t ts => ∃ t', ts = [t'] ∧ Spelled l.shift.under t t')
    (.inScope_under hsettled ?_) ?_
  · refine .level (q := fun m => Resolve.statement m
      (.while c' (.block (s' :: e'.toList.map .expression)) none) >>= fun t => pure [t])
      (fun s => ⟨s, rfl⟩) hfits.pos fun k hk => ?_
    subst hk
    exact (resolves_spelled ih hfits.fits_twice hfits.inside_twice l.settled_under hraw hc hs
      he).mapRight fun _ t' h => ⟨t', rfl, h⟩
  · rintro _ _ ⟨_, rfl, hc, hs, he⟩
    exact .wrapped hc hs he

end Spelling

section
variable {n m : Nat} (hm : LevelResolves side n m) {j : Jumps}
include hm

theorem resolves_var {mutability : Mutability} {name : Token} {e e' : Option Expr}
    (hraw : (Node.stmt (.var mutability name e)).Unresolved) (hsettled : l.Settled)
    (hopen : l.shift 0 = 0) (hname : TokenKind.ofWord name.lexeme = .identifier)
    (he : ExprsWrittenOut l.shift e.toList e'.toList) :
    Resolves side l l (Stmt.WrittenOut j l.shift)
      (Resolve.statement (n + 1) (.var mutability name e))
      (Resolve.statement (m + 1) (.var mutability name e')) := by
  unfold Resolve.statement
  refine Resolves.bind (R := Eq) (.step fun _ _ hs => hs.declare hopen hsettled name name.lexeme)
    fun _ _ _ => (hm.initial hraw hopen he).bind fun _ _ he => ?_
  refine Resolves.bind (R := Eq) (.step fun _ _ hs =>
    (hs.define hopen hsettled).setMutability hopen name.lexeme mutability) fun _ _ _ => ?_
  exact .pure (.var hopen hname he)

theorem resolves_function {d d' : FunctionDecl}
    (hraw : (Node.stmt (.function d)).Unresolved) (hsettled : l.Settled) (hopen : l.shift 0 = 0)
    (hname : TokenKind.ofWord d.displayName = .identifier)
    (hd : FunctionDecl.WrittenOut l.shift.inside d d') :
    Resolves side l l (Stmt.WrittenOut j l.shift) (Resolve.statement (n + 1) (.function d))
      (Resolve.statement (m + 1) (.function d')) := by
  have hdname : d'.name = d.name := by
    cases hd
    rfl
  have hbody : Resolves side l l (Stmt.WrittenOut j l.shift)
      (do return .function (← Resolve.functionBody n .function d))
      (do return .function (← Resolve.functionBody m .function d')) := by
    refine (hm.functionBody .function (hraw.inward [] .declared) hd).bind fun r _ h => .pure ?_
    have hdisplay : r.displayName = d.displayName := by
      unfold FunctionDecl.displayName
      rw [h.1]
    exact .function hopen (hdisplay ▸ hname) h.2
  unfold Resolve.statement
  dsimp only
  rw [hdname]
  cases d.name with
  | none => exact hbody
  | some name => exact (Resolves.bindName hopen hsettled name name.lexeme).bind fun _ _ _ => hbody

theorem resolves_derived {name : Token} {use : NameUse} {ds ds' : List FunctionDecl}
    (hraw : (Node.stmt (.class name (some use) ds)).Unresolved) (hsettled : l.Settled)
    (hopen : l.shift 0 = 0) (hname : TokenKind.ofWord name.lexeme = .identifier)
    (hds : FunctionsWrittenOut l.shift.inside.inside.inside ds ds') :
    Resolves side l l (Stmt.WrittenOut j l.shift)
      (Resolve.statement (n + 1) (.class name (some use) ds))
      (Resolve.statement (m + 1) (.class name (some (use.shift l.shift)) ds')) := by
  have huse : (Node.expr (.name use)).Unresolved :=
    hraw.inward [] (.part (List.mem_singleton_self _))
  have hhops := huse.here.2 use rfl
  have hraws := fun d hd => hraw.inward [] (.inherited (f := d) hd)
  rw [NameUse.shift_of_none hhops]
  unfold Resolve.statement
  refine .inClass ((Resolves.bindName hopen hsettled _ _).bind fun _ _ _ => ?_)
  have hrest : Resolves side l l (Stmt.WrittenOut j l.shift)
      (do
        let superclass ← Resolve.read use
        return .class name (some superclass) (← Resolve.inScope ["super"]
          (Resolve.inScope ["this"] (ds.mapM (Resolve.method n)))))
      (do
        let superclass ← Resolve.read use
        return .class name (some superclass) (← Resolve.inScope ["super"]
          (Resolve.inScope ["this"] (ds'.mapM (Resolve.method m))))) := by
    refine (Resolves.read hhops).bind fun u u' hu => ?_
    refine (Resolves.inScope (Resolves.inScope
      (hm.methods (l := l.inside.inside) hraws hds))).bind fun _ _ h => .pure ?_
    rw [hu.2]
    exact .derived hopen hname h
  dsimp only
  split
  · exact (Resolves.report use.name _).bind fun _ _ _ => hrest
  · exact hrest

end

theorem statement_succ {n m : Nat} (ih : ∀ k, side.Fits n k → LevelResolves side n k)
    (hfits : side.Fits (n + 1) (m + 1)) {j : Jumps} {s s' : Stmt}
    (hraw : (Node.stmt s).Unresolved) (hsettled : l.Settled) (hs : Stmt.WrittenOut j l.shift s s') :
    Resolves side l l (Stmt.WrittenOut j l.shift) (Resolve.statement (n + 1) s)
      (Resolve.statement (m + 1) s') := by
  have hm := ih m hfits.pred
  have hpart : ∀ {q : Node}, q ∈ s.parts → q.Unresolved := fun h => hraw.inward [] (.part h)
  cases hs with
  | expression he =>
      unfold Resolve.statement
      exact (hm.expression (hpart (List.mem_cons_self ..)) he).bind fun _ _ h =>
        .pure (.expression h)
  | print he =>
      unfold Resolve.statement
      exact (hm.expression (hpart (List.mem_cons_self ..)) he).bind fun _ _ h => .pure (.print h)
  | var hopen hname he => exact resolves_var hm hraw hsettled hopen hname he
  | @block _ _ ss ss' hss =>
      have hraws : ∀ s ∈ ss, (Node.stmt s).Unresolved := by
        intro s hs
        obtain ⟨before, after, rfl⟩ := List.append_of_mem hs
        exact hraw.inward [] .block
      unfold Resolve.statement
      exact (Resolves.inScope (hm.statements hraws l.settled_inside hss)).bind fun _ _ h =>
        .pure (.block h)
  | «if» hc hs ht =>
      unfold Resolve.statement
      refine (hm.expression (hpart (List.mem_cons_self ..)) hc).bind fun _ _ hc => ?_
      refine (hm.statement (hpart (List.mem_cons_of_mem _ (List.mem_cons_self ..))) hsettled
        hs).bind fun _ _ hs => ?_
      exact (hm.optionalStmt (fun x hx => hpart (List.mem_cons_of_mem _
        (List.mem_cons_of_mem _ (List.mem_map_of_mem hx)))) hsettled ht).bind fun _ _ ht =>
        .pure (.if hc hs ht)
  | «while» hc hs he =>
      unfold Resolve.statement
      refine .inLoop ((hm.expression (hpart (List.mem_cons_self ..)) hc).bind fun _ _ hc => ?_)
      refine (hm.statement (hpart (List.mem_cons_of_mem _ (List.mem_cons_self ..))) hsettled
        hs).bind fun _ _ hs => ?_
      exact (hm.optional (fun x hx => hpart (List.mem_cons_of_mem _
        (List.mem_cons_of_mem _ (List.mem_map_of_mem hx)))) he).bind fun _ _ he =>
        .pure (.while hc hs he)
  | spelled hc hs he =>
      refine (resolves_spelled ih hfits.pred hfits.inside hsettled hraw hc hs he).weaken ?_
      rintro _ _ ⟨hc, hs, he⟩
      exact .spelled hc hs he
  | wrapped hc hs he => exact resolves_wrapped ih hfits hsettled hraw hc hs he
  | «break» hj =>
      unfold Resolve.statement
      exact .checking (fun s s' hs => by rw [hs.inLoop]) (.pure (.break hj))
  | «continue» hj =>
      unfold Resolve.statement
      exact .checking (fun s s' hs => by rw [hs.inLoop]) (.pure (.continue hj))
  | @«return» _ _ keyword e e' he =>
      have hsome : e'.isSome = e.isSome := by
        cases he.option <;> rfl
      unfold Resolve.statement
      refine (Resolves.checkReturn keyword).bind fun _ _ _ => .checking (fun s s' hs => ?_) ?_
      · rw [hsome, hs.function]
      · exact (hm.optional (fun x hx => hpart (List.mem_map_of_mem hx)) he).bind fun _ _ he =>
          .pure (.return he)
  | function hopen hname hd => exact resolves_function hm hraw hsettled hopen hname hd
  | root hopen hname hds =>
      unfold Resolve.statement
      refine .inClass ((Resolves.bindName hopen hsettled _ _).bind fun _ _ _ => ?_)
      have hraws := fun d hd => hraw.inward [] (.method (f := d) hd)
      exact (Resolves.inScope (hm.methods (l := l.inside) hraws hds)).bind fun _ _ h =>
        .pure (.root hopen hname h)
  | derived hopen hname hds => exact resolves_derived hm hraw hsettled hopen hname hds
  | @importModule _ _ keyword name as hopen =>
      unfold Resolve.statement
      dsimp only
      cases importNameError? (importedModule name) as.isSome with
      | some error => exact (Resolves.report name _).bind fun _ _ _ => .pure (.importModule hopen)
      | none =>
          exact (Resolves.bindName hopen hsettled _ _).bind fun _ _ _ => .pure (.importModule hopen)

/-- The first resolution has no level left. -/
theorem LevelResolves.first (m : Nat) : LevelResolves .first 0 m := by
  constructor
  case expression => exact fun _ _ => .stopped rfl
  case statement => exact fun _ _ _ => .stopped rfl
  case method => exact fun _ _ => .stopped rfl
  case functionBody => exact fun _ _ _ => .stopped rfl

/-- The second resolution has no level left. -/
theorem LevelResolves.second (n : Nat) : LevelResolves .second n 0 := by
  constructor
  case expression => exact fun _ _ => .stopped rfl
  case statement => exact fun _ _ _ => .stopped rfl
  case method => exact fun _ _ => .stopped rfl
  case functionBody => exact fun _ _ _ => .stopped rfl

/-- Trees with loops written out are resolved alike, if the other resolution has enough levels. -/
theorem levelResolves (side : Side) {n m : Nat} (hfits : side.Fits n m) :
    LevelResolves side n m := by
  induction n generalizing m with
  | zero =>
      cases side with
      | first => exact .first m
      | second =>
          obtain rfl : m = 0 := Nat.le_zero.mp hfits
          exact .second 0
  | succ n ih =>
      cases m with
      | zero =>
          cases side with
          | first => exact (Nat.not_succ_le_zero _ hfits).elim
          | second => exact .second (n + 1)
      | succ m =>
          have hm := ih hfits.pred
          constructor
          case expression => exact hm.expression_succ
          case statement =>
            intro l j s s' hraw hsettled hs
            exact statement_succ (fun k hk => ih hk) hfits hraw hsettled hs
          case method =>
            intro l d d' hraw hd
            have hcontext : Resolve.methodContext d' = Resolve.methodContext d := by
              cases hd
              rfl
            unfold Resolve.method
            rw [hcontext]
            exact (hm.functionBody _ hraw hd).weaken fun _ _ h => h.2
          case functionBody => exact fun context hraw hd => hm.functionBody_succ context hraw hd

end
end Layout
end Treewalk
