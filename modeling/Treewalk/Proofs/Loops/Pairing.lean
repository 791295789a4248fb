import Treewalk.Proofs.Loops.WrittenOut
import Treewalk.Proofs.Methods.Receivers
import Treewalk.Proofs.Twins.Worlds

/-!
# Worlds with more scopes

Two worlds of which the second one has scopes more than the first one: empty ones, in which blocks
run that the first one does not have. The scopes that both have are paired, and hold the same.
Functions and methods are the same but for loops written out, in paired scopes.
-/
theorem Option.Rel.imp {α β : Type} {R S : α → β → Prop} {a : Option α} {b : Option β}
    (h : Option.Rel R a b) (hRS : ∀ a b, R a b → S a b) : Option.Rel S a b := by
  cases h with
  | some h => exact .some (hRS _ _ h)
  | none => exact .none

namespace Treewalk

/-- A name is looked up in no other scope than one that has no parent. -/
theorem Scopes.holder?_root {s : Scopes Value} {r : Ref .scope} (h : (s.get r).parent = none)
    (name : String) : s.holder? r name = if s.contains r name = true then some r else none := by
  unfold Scopes.holder? Scopes.holderWithin
  rw [h]

/-- How the scopes of two worlds belong together. -/
structure Pairing where
  pair : Ref .scope → Ref .scope → Prop
  /-- The parents in the first world. -/
  parent : Ref .scope → Option (Ref .scope) → Prop
  /-- The parents in the second world. -/
  parent' : Ref .scope → Option (Ref .scope) → Prop
  /-- The scopes of the first world in which code runs. -/
  plain : Ref .scope → Prop

namespace Pairing

/-- More scopes are paired. -/
structure Le (Γ Δ : Pairing) : Prop where
  pair : ∀ {r r'}, Γ.pair r r' → Δ.pair r r'
  parent : ∀ {r p}, Γ.parent r p → Δ.parent r p
  parent' : ∀ {r p}, Γ.parent' r p → Δ.parent' r p
  plain : ∀ {r}, Γ.plain r → Δ.plain r

instance : LE Pairing := ⟨Le⟩

variable {Γ Δ Θ : Pairing}

theorem le_refl (Γ : Pairing) : Γ ≤ Γ := ⟨id, id, id, id⟩

theorem le_trans (h : Γ ≤ Δ) (h' : Δ ≤ Θ) : Γ ≤ Θ :=
  ⟨h'.pair ∘ h.pair, h'.parent ∘ h.parent, h'.parent' ∘ h.parent', h'.plain ∘ h.plain⟩

/-- Code that runs in the first scope runs in the second one with its hops shifted. -/
inductive Sees (Γ : Pairing) : Shift → Ref .scope → Ref .scope → Prop
  | root {r r' : Ref .scope} : Γ.pair r r' → Γ.parent r none → Γ.parent' r' none → Sees Γ id r r'
  | inside {f : Shift} {r r' p p' : Ref .scope} : Γ.pair r r' → Γ.parent r (some p) →
      Γ.parent' r' (some p') → Sees Γ f p p' → Sees Γ f.inside r r'
  | under {f : Shift} {r r' p' : Ref .scope} : Γ.plain r → Γ.parent' r' (some p') →
      Sees Γ f r p' → Sees Γ f.under r r'

theorem Sees.mono {f : Shift} {r r' : Ref .scope} (h : Γ.Sees f r r') (hle : Γ ≤ Δ) :
    Δ.Sees f r r' := by
  induction h with
  | root hpair hp hp' => exact .root (hle.pair hpair) (hle.parent hp) (hle.parent' hp')
  | inside hpair hp hp' _ ih => exact .inside (hle.pair hpair) (hle.parent hp) (hle.parent' hp') ih
  | under hplain hp' _ ih => exact .under (hle.plain hplain) (hle.parent' hp') ih

/-- Code runs at the one site as at the other one. -/
structure Sites (Γ : Pairing) (f : Shift) (site site' : Site) : Prop where
  home : site'.home = site.home
  plain : Γ.plain site.scope
  sees : Γ.Sees f site.scope site'.scope

theorem Sites.mono {f : Shift} {site site' : Site} (h : Γ.Sites f site site') (hle : Γ ≤ Δ) :
    Δ.Sites f site site' := ⟨h.home, hle.plain h.plain, h.sees.mono hle⟩

/-- Functions that can be called. The scope of an initializer holds its receiver. -/
structure Functions (Γ : Pairing) (g g' : Closure) : Prop where
  home : g'.home = g.home
  isInitializer : g'.isInitializer = g.isInitializer
  declaration : ∃ f, Γ.Sees f g.scope g'.scope ∧ (g.isInitializer = true → f 0 = 0) ∧
    FunctionDecl.WrittenOut f.inside g.declaration g'.declaration

/-- A function that is declared in one of the sites, and the one in the other. -/
theorem Sites.function {f : Shift} {site site' : Site} {d d' : FunctionDecl}
    (h : Γ.Sites f site site') (hd : FunctionDecl.WrittenOut f.inside d d') :
    Γ.Functions ⟨d, site.scope, site.home, false⟩ ⟨d', site'.scope, site'.home, false⟩ :=
  ⟨h.home, rfl, f, h.sees, nofun, hd⟩

/-- Methods of classes, to which a receiver is yet to be bound. -/
structure Methods (Γ : Pairing) (g g' : Closure) : Prop where
  home : g'.home = g.home
  isInitializer : g'.isInitializer = g.isInitializer
  declaration : ∃ f, Γ.Sees f g.scope g'.scope ∧
    FunctionDecl.WrittenOut f.inside.inside g.declaration g'.declaration

structure Classes (Γ : Pairing) (c c' : ClassObject) : Prop where
  name : c'.name = c.name
  superclass : c'.superclass = c.superclass
  methods : ∀ name, Option.Rel Γ.Methods (c.methods.find? name) (c'.methods.find? name)

structure Interpreters (Γ : Pairing) (i i' : Interpreter) : Prop where
  rest : i' = { i with globals := i'.globals }
  pair : Γ.pair i.globals i'.globals
  parent : Γ.parent i.globals none
  parent' : Γ.parent' i'.globals none
  plain : Γ.plain i.globals

section
variable {g g' : Closure} (hle : Γ ≤ Δ)
include hle

theorem Functions.mono (h : Γ.Functions g g') : Δ.Functions g g' := by
  obtain ⟨f, hsees, hopen, hd⟩ := h.declaration
  exact ⟨h.home, h.isInitializer, f, hsees.mono hle, hopen, hd⟩

theorem Methods.mono (h : Γ.Methods g g') : Δ.Methods g g' := by
  obtain ⟨f, hsees, hd⟩ := h.declaration
  exact ⟨h.home, h.isInitializer, f, hsees.mono hle, hd⟩

theorem Classes.mono {c c' : ClassObject} (h : Γ.Classes c c') : Δ.Classes c c' :=
  { h with methods := fun name => (h.methods name).imp fun _ _ hm => hm.mono hle }

theorem Interpreters.mono {i i' : Interpreter} (h : Γ.Interpreters i i') : Δ.Interpreters i i' :=
  ⟨h.rest, hle.pair h.pair, hle.parent h.parent, hle.parent' h.parent', hle.plain h.plain⟩

end

/-- The scopes of two worlds: those that are paired hold the same, and those in which code runs hold
nothing for methods. -/
structure Holds (Γ : Pairing) (s s' : Scopes Value) : Prop where
  lt : ∀ {r r'}, Γ.pair r r' → r.index < s.size ∧ r'.index < s'.size
  one : ∀ {r r' q q'}, Γ.pair r r' → Γ.pair q q' → (r = q ↔ r' = q')
  values : ∀ {r r'}, Γ.pair r r' → (s'.get r').values = (s.get r).values
  parent : ∀ {r p}, Γ.parent r p → r.index < s.size ∧ (s.get r).parent = p
  parent' : ∀ {r p}, Γ.parent' r p → r.index < s'.size ∧ (s'.get r).parent = p
  plain : ∀ {r}, Γ.plain r → r.index < s.size ∧ s.held r = (none, none)

/-- Worlds of which the second one has scopes more. -/
structure Worlds (Γ : Pairing) (w w' : World) : Prop where
  scopes : Γ.Holds w.scopes w'.scopes
  functions : w.functions.Matches (fun _ => Γ.Functions) w'.functions
  classes : w.classes.Matches (fun _ => Γ.Classes) w'.classes
  instances : w'.instances = w.instances
  modules : w'.modules = w.modules
  interpreters : w.interpreters.Matches (fun _ => Γ.Interpreters) w'.interpreters
  loaders : w'.loaders = w.loaders
  files : w'.files = w.files
  workingDirectory : w'.workingDirectory = w.workingDirectory
  console : w'.console = w.console
  now : w'.now = w.now

/-! ### Scopes -/

namespace Holds
variable {s s' : Scopes Value} {r r' p p' : Ref .scope} {f : Shift} (h : Γ.Holds s s')
include h

theorem find? (hr : Γ.pair r r') (name : String) : s'.find? r' name = s.find? r name := by
  unfold Scopes.find?
  rw [h.values hr]

theorem contains (hr : Γ.pair r r') (name : String) :
    s'.contains r' name = s.contains r name := by
  unfold Scopes.contains
  rw [h.values hr]

/-- The scopes outward are paired. -/
theorem ancestor? (hr : Γ.Sees f r r') (hops : Nat) :
    Option.Rel Γ.pair (s.ancestor? hops r) (s'.ancestor? (f hops) r') := by
  induction hr generalizing hops with
  | root hpair hp hp' =>
      cases hops with
      | zero => exact .some hpair
      | succ hops =>
          simp only [id_eq, Scopes.ancestor?, (h.parent hp).2, (h.parent' hp').2]
          exact .none
  | inside hpair hp hp' _ ih =>
      cases hops with
      | zero => exact .some hpair
      | succ hops =>
          simp only [Shift.inside, Scopes.ancestor?, (h.parent hp).2, (h.parent' hp').2]
          exact ih hops
  | under _ hp' _ ih =>
      simp only [Shift.under, Scopes.ancestor?, (h.parent' hp').2]
      exact ih hops

theorem pair_of_sees (hr : Γ.Sees f r r') (hopen : f 0 = 0) : Γ.pair r r' := by
  have hrel := h.ancestor? hr 0
  rw [hopen] at hrel
  cases hrel with
  | some hpair => exact hpair

/-- The scopes for receivers and superclasses are next to each other in both worlds; code runs in
all others. -/
theorem aligned (hr : Γ.Sees f r r') (hops : Nat) :
    f (hops - 1) = f hops - 1 ∨ ∀ a, s.ancestor? hops r = some a → Γ.plain a := by
  have hpos : ∀ {f : Shift} {r r' : Ref .scope}, Γ.Sees f r r' → ∀ hops, 0 < f (hops + 1) := by
    intro f r r' hr hops
    cases hr <;> exact Nat.succ_pos _
  induction hr generalizing hops with
  | root => exact .inl rfl
  | @inside f r r' p p' hpair hp hp' hsees ih =>
      match hops with
      | 0 => exact .inl rfl
      | 1 =>
          refine (ih 0).imp (fun he => ?_) fun hplain a ha => ?_
          · change f 0 = f 0 - 1 at he
            change 0 = f 0 + 1 - 1
            omega
          · simp only [Scopes.ancestor?, (h.parent hp).2] at ha
            exact hplain a ha
      | hops + 2 =>
          have := hpos hsees hops
          refine (ih (hops + 1)).imp (fun he => ?_) fun hplain a ha => ?_
          · change f hops = f (hops + 1) - 1 at he
            change f hops + 1 = f (hops + 1) + 1 - 1
            omega
          · simp only [Scopes.ancestor?, (h.parent hp).2] at ha
            exact hplain a ha
  | under hplain hp' hsees ih =>
      cases hops with
      | zero =>
          refine .inr fun a ha => ?_
          cases ha
          exact hplain
      | succ hops =>
          have := hpos hsees hops
          refine (ih (hops + 1)).imp (fun he => ?_) id
          simp only [Shift.under, Nat.add_sub_cancel] at he ⊢
          omega

/-- The names of globals are looked up alike. -/
theorem holder? (hr : Γ.pair r r') (hp : Γ.parent r none) (hp' : Γ.parent' r' none)
    (name : String) : Option.Rel Γ.pair (s.holder? r name) (s'.holder? r' name) := by
  rw [Scopes.holder?_root (h.parent hp).2, Scopes.holder?_root (h.parent' hp').2,
    h.contains hr]
  by_cases hc : s.contains r name = true
  · rw [if_pos hc, if_pos hc]
    exact .some hr
  · rw [if_neg hc, if_neg hc]
    exact .none

/-- A name is bound in paired scopes. -/
theorem define (hr : Γ.pair r r') {name : String} {v : Value}
    (hv : ∀ a, Γ.plain a → (s.define r name v).held a = s.held a) :
    Γ.Holds (s.define r name v) (s'.define r' name v) := by
  constructor
  case lt =>
    intro a a' ha
    simp only [Scopes.define, Arena.size_set]
    exact h.lt ha
  case one => exact h.one
  case values =>
    intro a a' ha
    by_cases he : r = a
    · have he' := (h.one hr ha).mp he
      subst he he'
      unfold Scopes.define
      rw [Arena.get_set_self _ _ (h.lt hr).1, Arena.get_set_self _ _ (h.lt hr).2]
      simp only [h.values hr]
    · have he' := mt (h.one hr ha).mpr he
      rw [Scopes.get_define_of_ne _ _ _ he, Scopes.get_define_of_ne _ _ _ he']
      exact h.values ha
  case parent =>
    intro a p ha
    rw [Scopes.parent_of_define]
    simp only [Scopes.define, Arena.size_set]
    exact h.parent ha
  case parent' =>
    intro a p ha
    rw [Scopes.parent_of_define]
    simp only [Scopes.define, Arena.size_set]
    exact h.parent' ha
  case plain =>
    intro a ha
    rw [hv a ha]
    simp only [Scopes.define, Arena.size_set]
    exact h.plain ha

end Holds

/-- A scope more in both worlds, in which code runs or not. -/
def both (Γ : Pairing) (runs : Prop) (r r' : Ref .scope) (p p' : Option (Ref .scope)) : Pairing where
  pair a a' := Γ.pair a a' ∨ a = r ∧ a' = r'
  parent a q := Γ.parent a q ∨ a = r ∧ q = p
  parent' a q := Γ.parent' a q ∨ a = r' ∧ q = p'
  plain a := Γ.plain a ∨ runs ∧ a = r

/-- A scope more in the second world. -/
def extra (Γ : Pairing) (r' p' : Ref .scope) : Pairing :=
  { Γ with parent' := fun a q => Γ.parent' a q ∨ a = r' ∧ q = some p' }

theorem le_both (Γ : Pairing) (runs : Prop) (r r' : Ref .scope) (p p' : Option (Ref .scope)) :
    Γ ≤ Γ.both runs r r' p p' := ⟨.inl, .inl, .inl, .inl⟩

theorem le_extra (Γ : Pairing) (r' p' : Ref .scope) : Γ ≤ Γ.extra r' p' := ⟨id, id, .inl, id⟩

theorem sees_both {runs : Prop} {f : Shift} {r r' p p' : Ref .scope} (h : Γ.Sees f p p') :
    (Γ.both runs r r' (some p) (some p')).Sees f.inside r r' :=
  .inside (.inr ⟨rfl, rfl⟩) (.inr ⟨rfl, rfl⟩) (.inr ⟨rfl, rfl⟩) (h.mono (le_both ..))

theorem Holds.both {s s' : Scopes Value} (h : Γ.Holds s s') (runs : Prop)
    (p p' : Option (Ref .scope)) :
    (Γ.both runs s.next s'.next p p').Holds (s.addChild p) (s'.addChild p') := by
  have hnext : ∀ {s : Scopes Value} {r : Ref .scope}, r.index < s.size → r ≠ s.next :=
    fun hr he => Nat.lt_irrefl _ (by rw [he] at hr; exact hr)
  have hsize := s.size_addChild p
  have hsize' := s'.size_addChild p'
  constructor
  case lt =>
    rintro a a' (ha | ⟨rfl, rfl⟩)
    · have := h.lt ha
      omega
    · exact ⟨by rw [hsize]; exact Nat.lt_succ_self _, by rw [hsize']; exact Nat.lt_succ_self _⟩
  case one =>
    rintro a a' b b' (ha | ⟨rfl, rfl⟩) (hb | ⟨rfl, rfl⟩)
    · exact h.one ha hb
    · exact iff_of_false (hnext (h.lt ha).1) (hnext (h.lt ha).2)
    · exact iff_of_false (hnext (h.lt hb).1).symm (hnext (h.lt hb).2).symm
    · exact iff_of_true rfl rfl
  case values =>
    rintro a a' (ha | ⟨rfl, rfl⟩)
    · rw [Scopes.get_addChild_of_lt _ _ (h.lt ha).1, Scopes.get_addChild_of_lt _ _ (h.lt ha).2]
      exact h.values ha
    · rw [Scopes.get_addChild, Scopes.get_addChild, if_pos rfl, if_pos rfl]
  case parent =>
    rintro a q (ha | ⟨rfl, rfl⟩)
    · obtain ⟨hlt, hq⟩ := h.parent ha
      rw [Scopes.get_addChild_of_lt _ _ hlt]
      exact ⟨by omega, hq⟩
    · rw [Scopes.get_addChild, if_pos rfl]
      exact ⟨by rw [hsize]; exact Nat.lt_succ_self _, rfl⟩
  case parent' =>
    rintro a q (ha | ⟨rfl, rfl⟩)
    · obtain ⟨hlt, hq⟩ := h.parent' ha
      rw [Scopes.get_addChild_of_lt _ _ hlt]
      exact ⟨by omega, hq⟩
    · rw [Scopes.get_addChild, if_pos rfl]
      exact ⟨by rw [hsize']; exact Nat.lt_succ_self _, rfl⟩
  case plain =>
    rintro a (ha | ⟨-, rfl⟩)
    · obtain ⟨hlt, hheld⟩ := h.plain ha
      rw [Scopes.held_of_get (Scopes.get_addChild_of_lt _ _ hlt)]
      exact ⟨by omega, hheld⟩
    · exact ⟨by rw [hsize]; exact Nat.lt_succ_self _, Scopes.held_addChild _ _⟩

theorem Holds.extra {s s' : Scopes Value} (h : Γ.Holds s s') (p' : Ref .scope) :
    (Γ.extra s'.next p').Holds s (s'.addChild (some p')) := by
  have hsize := s'.size_addChild (some p')
  constructor
  case lt =>
    intro a a' ha
    have := h.lt ha
    omega
  case one => exact h.one
  case values =>
    intro a a' ha
    rw [Scopes.get_addChild_of_lt _ _ (h.lt ha).2]
    exact h.values ha
  case parent => exact h.parent
  case parent' =>
    rintro a q (ha | ⟨rfl, rfl⟩)
    · obtain ⟨hlt, hq⟩ := h.parent' ha
      rw [Scopes.get_addChild_of_lt _ _ hlt]
      exact ⟨by omega, hq⟩
    · rw [Scopes.get_addChild, if_pos rfl]
      exact ⟨by rw [hsize]; exact Nat.lt_succ_self _, rfl⟩
  case plain => exact h.plain

/-- A scope for a receiver or a superclass, in which no code runs. -/
theorem Holds.fresh {s s' : Scopes Value} (h : Γ.Holds s s') (p p' : Option (Ref .scope))
    (name : String) (v : Value) :
    (Γ.both False s.next s'.next p p').Holds ((s.addChild p).define s.next name v)
      ((s'.addChild p').define s'.next name v) := by
  refine (h.both False p p').define (.inr ⟨rfl, rfl⟩) fun a ha => ?_
  rcases ha with ha | ⟨hfalse, -⟩
  · have hne : s.next ≠ a := by
      rintro rfl
      exact Nat.lt_irrefl _ (h.plain ha).1
    exact Scopes.held_of_get (Scopes.get_define_of_ne _ _ _ hne)
  · exact hfalse.elim

end Pairing

theorem Arena.Matches.mono {kind : RefKind} {α : Type} [Inhabited α] {a a' : Arena kind α}
    {R S : Ref kind → α → α → Prop} (h : a.Matches R a') (hRS : ∀ r x x', R r x x' → S r x x') :
    a.Matches S a' := ⟨h.size, fun r => hRS r _ _ (h.get r)⟩

namespace Pairing.Worlds
variable {Γ Δ : Pairing} {w w' : World} (h : Γ.Worlds w w')
include h

/-- More scopes. -/
theorem extend (hle : Γ ≤ Δ) {s s' : Scopes Value} (hs : Δ.Holds s s') :
    Δ.Worlds { w with scopes := s } { w' with scopes := s' } :=
  { h with
    scopes := hs
    functions := h.functions.mono fun _ _ _ hf => hf.mono hle
    classes := h.classes.mono fun _ _ _ hc => hc.mono hle
    interpreters := h.interpreters.mono fun _ _ _ hi => hi.mono hle }

/-! ### What programs see -/

/-- The same methods are found. -/
theorem method? (r : Ref .class) (name : String) :
    w.method? r name = none ∧ w'.method? r name = none ∨
      ∃ g g', w.method? r name = some g ∧ w'.method? r name = some g' ∧ Γ.Methods g g' :=
  World.method?_rel (fun c => (h.classes.get c).methods) (fun c => (h.classes.get c).superclass) r name

theorem arity? (v : Value) : w'.arity? v = w.arity? v := by
  have hlength : ∀ {f : Shift} {g g' : Closure},
      FunctionDecl.WrittenOut f g.declaration g'.declaration → g'.arity = g.arity := by
    intro f g g' hd
    unfold Closure.arity
    rw [hd.parameters]
  refine World.arity?_congr (fun g g' hg => ?_) (fun r => ?_) (fun r => h.method? r "init") v
  · obtain ⟨f, -, hd⟩ := hg.declaration
    exact hlength hd
  · obtain ⟨f, -, -, hd⟩ := (h.functions.get r).declaration
    exact hlength hd

theorem display (v : Value) : w'.display v = w.display v := by
  refine World.display_congr (fun r => ?_) (fun r => (h.classes.get r).name) h.instances h.modules v
  obtain ⟨f, -, -, hd⟩ := (h.functions.get r).declaration
  exact hd.displayName

theorem interpreter (home : Ref .interpreter) :
    w'.interpreters.get home =
      { w.interpreters.get home with globals := (w'.interpreters.get home).globals } :=
  (h.interpreters.get home).rest

theorem findModule (home : Ref .interpreter) (name : String) :
    w'.findModule home name = w.findModule home name := by
  unfold World.findModule World.moduleDirectories
  dsimp only
  rw [h.interpreter home, h.files, h.workingDirectory, h.loaders]

/-! ### What is done to both -/

theorem log (l : LogLine) : Γ.Worlds (w.log l) (w'.log l) := by
  unfold World.log
  rw [h.console]
  exact { h with console := rfl }

theorem updateInterpreter (home : Ref .interpreter) {f : Interpreter → Interpreter}
    (hf : ∀ i g, f { i with globals := g } = { f i with globals := g })
    (hg : ∀ i, (f i).globals = i.globals) :
    Γ.Worlds (w.updateInterpreter home f) (w'.updateInterpreter home f) := by
  have hi := h.interpreters.get home
  have hset : Γ.Interpreters (f (w.interpreters.get home)) (f (w'.interpreters.get home)) := by
    constructor
    case rest =>
      rw [hg, h.interpreter home, hf]
    case pair =>
      rw [hg, hg]
      exact hi.pair
    case parent =>
      rw [hg]
      exact hi.parent
    case parent' =>
      rw [hg]
      exact hi.parent'
    case plain =>
      rw [hg]
      exact hi.plain
  exact { h with interpreters := h.interpreters.set home hset }

theorem updateLoader (loader : Ref .loader) (f : Loader → Loader) :
    Γ.Worlds (w.updateLoader loader f) (w'.updateLoader loader f) := by
  unfold World.updateLoader
  rw [h.loaders]
  exact { h with loaders := rfl }

theorem publish (home : Ref .interpreter) (notice : Notice) :
    Γ.Worlds (w.publish home notice) (w'.publish home notice) := by
  cases notice with
  | log l => exact h.log l
  | error d =>
      unfold World.publish
      dsimp only
      rw [h.interpreter home, h.console]
      have hwarned : Γ.Worlds
          { w with console := (w.console.warn
            ((w.interpreters.get home).reporter.staticText d.place d.error.message)) }
          { w' with console := (w.console.warn
            ((w.interpreters.get home).reporter.staticText d.place d.error.message)) } :=
        { h with console := rfl }
      exact hwarned.updateInterpreter home (fun _ _ => rfl) fun _ => rfl

theorem publishAll (home : Ref .interpreter) (notices : List Notice) :
    Γ.Worlds (notices.foldl (fun w notice => w.publish home notice) w)
      (notices.foldl (fun w notice => w.publish home notice) w') :=
  List.foldl_rel h fun notice _ _ _ h => h.publish home notice

theorem reportRuntime (home : Ref .interpreter) (e : RuntimeError) :
    Γ.Worlds (w.reportRuntime home e) (w'.reportRuntime home e) := by
  unfold World.reportRuntime
  dsimp only
  rw [h.interpreter home, h.console]
  have hwarned : Γ.Worlds
      { w with console := (w.console.warn
        ((w.interpreters.get home).reporter.runtimeText e.token.line e.cause.message)) }
      { w' with console := (w.console.warn
        ((w.interpreters.get home).reporter.runtimeText e.token.line e.cause.message)) } :=
    { h with console := rfl }
  exact hwarned.updateInterpreter home (fun _ _ => rfl) fun _ => rfl

theorem addInterpreter (unit : String) (loader : Ref .loader) :
    ∃ Δ, Γ ≤ Δ ∧ Δ.Worlds (w.addInterpreter unit loader) (w'.addInterpreter unit loader) := by
  let R : World → World → Prop := fun v v' =>
    v.scopes.next = w.scopes.next ∧ v'.scopes.next = w'.scopes.next ∧ Γ.Worlds v v'
  refine ⟨Γ.both True w.scopes.next w'.scopes.next none none, le_both .., ?_⟩
  refine World.addInterpreter_both (R := R) ⟨rfl, rfl, h⟩ unit loader h.interpreters.size
    (fun l => ⟨rfl, rfl, h.log l⟩) ?_
  rintro v v' ⟨hnext, hnext', hv⟩
  rw [← hnext, ← hnext']
  have hharmless : (v.scopes.addChild none).Harmless v.scopes.next clockName
      (.clock v.interpreters.next) := .inl (by decide)
  have hclock : ∀ a, ((v.scopes.addChild none).define v.scopes.next clockName
      (.clock v.interpreters.next)).held a = (v.scopes.addChild none).held a :=
    fun _ => Scopes.held_define hharmless
  have hholds := (hv.scopes.both True none none).define (.inr ⟨rfl, rfl⟩) fun a _ => hclock a
  have hextended := hv.extend (le_both ..) hholds
  unfold World.withInterpreter
  rw [hv.interpreters.next]
  exact { hextended with
    interpreters := hextended.interpreters.add
      ⟨rfl, .inr ⟨rfl, rfl⟩, .inr ⟨rfl, rfl⟩, .inr ⟨rfl, rfl⟩, .inr ⟨trivial, rfl⟩⟩ }

end Pairing.Worlds
end Treewalk
