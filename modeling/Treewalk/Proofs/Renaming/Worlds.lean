import Treewalk.Proofs.Renaming.Trees
import Treewalk.Proofs.Loops.Pairing

/-!
# Worlds with a local renamed

Two worlds with the same objects. In scopes of the second one the old name is renamed, as it is in
the code that functions and methods keep.
-/
namespace Treewalk

namespace Renaming

/-- What stays true of scopes: whether the old name is renamed in them, and what is around them. -/
structure Chart where
  mark : Ref .scope → Bool → Prop
  parent : Ref .scope → Option (Ref .scope) → Prop

namespace Chart

/-- More scopes. -/
structure Le (Φ Ψ : Chart) : Prop where
  mark : ∀ {r b}, Φ.mark r b → Ψ.mark r b
  parent : ∀ {r p}, Φ.parent r p → Ψ.parent r p

instance : LE Chart := ⟨Le⟩

variable {ρ : Renaming} {Φ Ψ Θ : Chart} {Γ : Context} {r p : Ref .scope} {renamed : Bool}

theorem le_refl (Φ : Chart) : Φ ≤ Φ := ⟨id, id⟩

theorem le_trans (h : Φ ≤ Ψ) (h' : Ψ ≤ Θ) : Φ ≤ Θ := ⟨h'.mark ∘ h.mark, h'.parent ∘ h.parent⟩

/-- Code in a scope has such scopes around it. -/
inductive Sees (Φ : Chart) : List Mark → Ref .scope → Prop
  | root {r : Ref .scope} : Φ.mark r false → Φ.parent r none → Sees Φ [] r
  | inside {mark : Mark} {marks : List Mark} {r p : Ref .scope} : Φ.mark r mark.renamed →
      Φ.parent r (some p) → Sees Φ marks p → Sees Φ (mark :: marks) r

namespace Sees

theorem mono {marks : List Mark} (h : Φ.Sees marks r) (hle : Φ ≤ Ψ) : Ψ.Sees marks r := by
  induction h with
  | root hmark hp => exact .root (hle.mark hmark) (hle.parent hp)
  | inside hmark hp _ ih => exact .inside (hle.mark hmark) (hle.parent hp) ih

theorem here (h : Φ.Sees Γ.marks r) : Φ.mark r Γ.here := by
  obtain ⟨marks, initializing⟩ := Γ
  cases h with
  | root hmark _ | inside hmark _ _ => exact hmark

/-- While a name is declared, code stands where it stood. -/
theorem initial (h : Φ.Sees Γ.marks r) (name : String) : Φ.Sees (Γ.initial ρ name).marks r := by
  obtain ⟨marks, initializing⟩ := Γ
  cases h with
  | root hmark hp => exact .root hmark hp
  | inside hmark hp hsees => exact .inside hmark hp hsees

end Sees

/-- Functions that can be called. -/
inductive Functions (ρ : Renaming) (Φ : Chart) (f : Closure) : Closure → Prop
  | mk {Γ : Context} {d : FunctionDecl} : Φ.Sees Γ.marks f.scope → f.declaration.Renamed ρ Γ d →
      Functions ρ Φ f { f with declaration := d }

/-- Methods of classes. A receiver is bound in a scope around their calls. -/
inductive Methods (ρ : Renaming) (Φ : Chart) (f : Closure) : Closure → Prop
  | mk {Γ : Context} {d : FunctionDecl} : Φ.Sees Γ.marks f.scope →
      f.declaration.Renamed ρ (Γ.enter false) d → Methods ρ Φ f { f with declaration := d }

structure Classes (ρ : Renaming) (Φ : Chart) (c c' : ClassObject) : Prop where
  name : c'.name = c.name
  superclass : c'.superclass = c.superclass
  methods : ∀ name, Option.Rel (Methods ρ Φ) (c.methods.find? name) (c'.methods.find? name)

section
variable {f f' : Closure}

theorem Functions.arity (h : Functions ρ Φ f f') : f'.arity = f.arity := by
  cases h with
  | mk _ hd => exact hd.length

theorem Functions.displayName (h : Functions ρ Φ f f') :
    f'.declaration.displayName = f.declaration.displayName := by
  cases h with
  | mk _ hd => exact hd.displayName

theorem Methods.arity (h : Methods ρ Φ f f') : f'.arity = f.arity := by
  cases h with
  | mk _ hd => exact hd.length

variable (hle : Φ ≤ Ψ)
include hle

theorem Functions.mono (h : Functions ρ Φ f f') : Functions ρ Ψ f f' := by
  cases h with
  | mk hsees hd => exact .mk (hsees.mono hle) hd

theorem Methods.mono (h : Methods ρ Φ f f') : Methods ρ Ψ f f' := by
  cases h with
  | mk hsees hd => exact .mk (hsees.mono hle) hd

theorem Classes.mono {c c' : ClassObject} (h : Classes ρ Φ c c') : Classes ρ Ψ c c' :=
  { h with methods := fun name => (h.methods name).imp fun _ _ hm => hm.mono hle }

end

/-- The scopes of two worlds hold the same, some of them with the old name renamed. -/
structure Holds (ρ : Renaming) (Φ : Chart) (s s' : Scopes Value) : Prop where
  size : s'.size = s.size
  lt : ∀ {r b}, Φ.mark r b → r.index < s.size
  one : ∀ {r b b'}, Φ.mark r b → Φ.mark r b' → b' = b
  renamed : ∀ {r}, Φ.mark r true → ρ.Binds true (s.get r).values (s'.get r).values
  same : ∀ {r}, Φ.mark r false → (s'.get r).values = (s.get r).values
  parent : ∀ {r p}, Φ.parent r p →
    r.index < s.size ∧ (s.get r).parent = p ∧ (s'.get r).parent = p

/-- Worlds in which the old name is renamed in scopes and in the code of functions and methods. -/
inductive Worlds (ρ : Renaming) (Φ : Chart) (w : World) : World → Prop
  | mk {scopes : Scopes Value} {functions : Arena .function Closure}
      {classes : Arena .class ClassObject} :
      Holds ρ Φ w.scopes scopes → w.functions.Matches (fun _ => Functions ρ Φ) functions →
      w.classes.Matches (fun _ => Classes ρ Φ) classes →
      (∀ home, Φ.mark (w.globals home) false ∧ Φ.parent (w.globals home) none) →
      Worlds ρ Φ w { w with scopes := scopes, functions := functions, classes := classes }

/-! ### Scopes -/

namespace Holds
variable {s s' : Scopes Value} {z : String} (h : Holds ρ Φ s s')
include h

theorem binds (hr : Φ.mark r renamed) : ρ.Binds renamed (s.get r).values (s'.get r).values := by
  cases renamed with
  | true => exact h.renamed hr
  | false =>
      intro z _
      rw [h.same hr, name_false]

theorem find? (hr : Φ.mark r renamed) (hz : renamed = true → z ≠ ρ.new) :
    s'.find? r (ρ.name renamed z) = s.find? r z :=
  h.binds hr z hz

/-- The scopes outward are the same, and the one to which hops lead is marked as they say. -/
theorem ancestor? {marks : List Mark} (hr : Φ.Sees marks r) (hops : Nat) :
    s'.ancestor? hops r = s.ancestor? hops r ∧
      ∀ a, s.ancestor? hops r = some a → Φ.mark a (renames marks (some hops)) := by
  induction hr generalizing hops with
  | root hmark hp =>
      obtain ⟨-, hnone, hnone'⟩ := h.parent hp
      cases hops with
      | zero =>
          refine ⟨rfl, fun a ha => ?_⟩
          cases ha
          exact hmark
      | succ hops =>
          unfold Scopes.ancestor?
          rw [hnone, hnone']
          refine ⟨rfl, fun a ha => ?_⟩
          cases ha
  | inside hmark hp _ ih =>
      obtain ⟨-, hsome, hsome'⟩ := h.parent hp
      cases hops with
      | zero =>
          refine ⟨rfl, fun a ha => ?_⟩
          cases ha
          exact hmark
      | succ hops =>
          unfold Scopes.ancestor?
          rw [hsome, hsome']
          exact ih hops

/-- The names of globals are looked up alike. -/
theorem holder? (hr : Φ.mark r false) (hp : Φ.parent r none) :
    s'.holder? r z = s.holder? r z ∧
      ∀ a, s.holder? r z = some a → a = r := by
  obtain ⟨-, hnone, hnone'⟩ := h.parent hp
  have hcontains : s'.contains r z = s.contains r z := congrArg (Bindings.contains · z) (h.same hr)
  rw [Scopes.holder?_root hnone, Scopes.holder?_root hnone', hcontains]
  refine ⟨rfl, fun a ha => ?_⟩
  by_cases hc : s.contains r z = true
  · rw [if_pos hc] at ha
    exact (Option.some.inj ha).symm
  · rw [if_neg hc] at ha
    cases ha

/-- A name is bound. -/
theorem define (hr : Φ.mark r renamed) (hz : renamed = true → z ≠ ρ.new) (v : Value) :
    Holds ρ Φ (s.define r z v) (s'.define r (ρ.name renamed z) v) := by
  have hlt := h.lt hr
  have hself : ((s.define r z v).get r).values = (s.get r).values.insert z v := by
    unfold Scopes.define
    rw [Arena.get_set_self _ _ hlt]
  have hself' : ((s'.define r (ρ.name renamed z) v).get r).values =
      (s'.get r).values.insert (ρ.name renamed z) v := by
    unfold Scopes.define
    rw [Arena.get_set_self _ _ (h.size ▸ hlt)]
  constructor
  case size =>
    unfold Scopes.define
    rw [Arena.size_set, Arena.size_set, h.size]
  case lt =>
    intro a b ha
    unfold Scopes.define
    rw [Arena.size_set]
    exact h.lt ha
  case one => exact h.one
  case renamed =>
    intro a ha
    by_cases he : r = a
    · subst he
      cases h.one ha hr
      rw [hself, hself']
      exact (h.renamed ha).insert hz v
    · rw [Scopes.get_define_of_ne _ _ _ he, Scopes.get_define_of_ne _ _ _ he]
      exact h.renamed ha
  case same =>
    intro a ha
    by_cases he : r = a
    · subst he
      cases h.one ha hr
      rw [hself, hself', h.same ha, name_false]
    · rw [Scopes.get_define_of_ne _ _ _ he, Scopes.get_define_of_ne _ _ _ he]
      exact h.same ha
  case parent =>
    intro a p ha
    rw [Scopes.parent_of_define, Scopes.parent_of_define]
    unfold Scopes.define
    rw [Arena.size_set]
    exact h.parent ha

end Holds

/-- A scope more. -/
def grow (Φ : Chart) (renamed : Bool) (r : Ref .scope) (p : Option (Ref .scope)) : Chart where
  mark a b := Φ.mark a b ∨ a = r ∧ b = renamed
  parent a q := Φ.parent a q ∨ a = r ∧ q = p

theorem le_grow (Φ : Chart) (renamed : Bool) (r : Ref .scope) (p : Option (Ref .scope)) :
    Φ ≤ Φ.grow renamed r p := ⟨.inl, .inl⟩

theorem sees_grow (h : Φ.Sees Γ.marks p) (renamed : Bool) (r : Ref .scope) :
    (Φ.grow renamed r (some p)).Sees (Γ.enter renamed).marks r :=
  .inside (.inr ⟨rfl, rfl⟩) (.inr ⟨rfl, rfl⟩) (h.mono (le_grow ..))

theorem Holds.grow {s s' : Scopes Value} (h : Holds ρ Φ s s') (renamed : Bool)
    (p : Option (Ref .scope)) :
    Holds ρ (Φ.grow renamed s.next p) (s.addChild p) (s'.addChild p) := by
  have hnext : s'.next = s.next := congrArg Ref.mk h.size
  have hnew : s.next.index < (s.addChild p).size := by
    rw [s.size_addChild]
    exact Nat.lt_succ_self _
  have hnew_ne : ∀ {r b}, Φ.mark r b → r ≠ s.next := fun hr he =>
    Nat.lt_irrefl _ (by rw [he] at hr; exact h.lt hr)
  have hold : ∀ {a : Ref .scope}, a.index < s.size → (s.addChild p).get a = s.get a ∧
      (s'.addChild p).get a = s'.get a := fun ha =>
    ⟨Scopes.get_addChild_of_lt _ _ ha, Scopes.get_addChild_of_lt _ _ (h.size ▸ ha)⟩
  have hself : (s.addChild p).get s.next = { parent := p } ∧
      (s'.addChild p).get s.next = { parent := p } := by
    rw [Scopes.get_addChild, Scopes.get_addChild, hnext, if_pos rfl, if_pos rfl]
    exact ⟨rfl, rfl⟩
  constructor
  case size => rw [s.size_addChild, s'.size_addChild, h.size]
  case lt =>
    rintro a b (ha | ⟨rfl, rfl⟩)
    · rw [s.size_addChild]
      exact Nat.lt_succ_of_lt (h.lt ha)
    · exact hnew
  case one =>
    rintro a b b' (ha | ⟨rfl, rfl⟩) (hb | ⟨he, rfl⟩)
    · exact h.one ha hb
    · exact (hnew_ne ha he).elim
    · exact (hnew_ne hb rfl).elim
    · rfl
  case renamed =>
    rintro a (ha | ⟨rfl, -⟩)
    · rw [(hold (h.lt ha)).1, (hold (h.lt ha)).2]
      exact h.renamed ha
    · rw [hself.1, hself.2]
      exact fun _ _ => rfl
  case same =>
    rintro a (ha | ⟨rfl, -⟩)
    · rw [(hold (h.lt ha)).1, (hold (h.lt ha)).2]
      exact h.same ha
    · rw [hself.1, hself.2]
  case parent =>
    rintro a q (ha | ⟨rfl, rfl⟩)
    · obtain ⟨hlt, hq⟩ := h.parent ha
      rw [(hold hlt).1, (hold hlt).2, s.size_addChild]
      exact ⟨Nat.lt_succ_of_lt hlt, hq⟩
    · rw [hself.1, hself.2]
      exact ⟨hnew, rfl, rfl⟩

/-! ### Worlds -/

namespace Worlds
variable {w w' : World}

section
variable (h : Worlds ρ Φ w w')
include h

theorem scopes : Holds ρ Φ w.scopes w'.scopes := by
  cases h with
  | mk hs _ _ _ => exact hs

theorem functions : w.functions.Matches (fun _ => Functions ρ Φ) w'.functions := by
  cases h with
  | mk _ hf _ _ => exact hf

theorem classes : w.classes.Matches (fun _ => Classes ρ Φ) w'.classes := by
  cases h with
  | mk _ _ hc _ => exact hc

theorem globals (home : Ref .interpreter) :
    Φ.mark (w.globals home) false ∧ Φ.parent (w.globals home) none := by
  cases h with
  | mk _ _ _ hg => exact hg home

/-- What programs can change, but scopes, functions and classes. -/
theorem instances : w'.instances = w.instances := by
  cases h
  rfl

theorem modules : w'.modules = w.modules := by
  cases h
  rfl

theorem interpreters : w'.interpreters = w.interpreters := by
  cases h
  rfl

theorem globals_eq (home : Ref .interpreter) : w'.globals home = w.globals home := by
  cases h
  rfl

/-- Globals are the same. -/
theorem load? (home : Ref .interpreter) (z : String) :
    w'.scopes.load? (w'.globals home) z = w.scopes.load? (w.globals home) z := by
  obtain ⟨hmark, hparent⟩ := h.globals home
  obtain ⟨hsame, hroot⟩ := h.scopes.holder? (z := z) hmark hparent
  unfold Scopes.load?
  rw [h.globals_eq, hsame]
  cases hh : w.scopes.holder? (w.globals home) z with
  | none => rfl
  | some a =>
      rw [hroot a hh]
      exact congrArg (Bindings.find? · z) (h.scopes.same hmark)

theorem console : w'.console = w.console := by
  cases h
  rfl

/-- More scopes. -/
theorem extend (hle : Φ ≤ Ψ) {s s' : Scopes Value} (hs : Holds ρ Ψ s s') :
    Worlds ρ Ψ { w with scopes := s } { w' with scopes := s' } := by
  cases h with
  | mk _ hf hc hg =>
      exact .mk hs (hf.mono fun _ _ _ h => h.mono hle) (hc.mono fun _ _ _ h => h.mono hle)
        fun home => ⟨hle.mark (hg home).1, hle.parent (hg home).2⟩

/-! ### What programs see -/

/-- The same methods are found. -/
theorem method? (r : Ref .class) (name : String) :
    w.method? r name = none ∧ w'.method? r name = none ∨
      ∃ f f', w.method? r name = some f ∧ w'.method? r name = some f' ∧ Methods ρ Φ f f' :=
  World.method?_rel (fun c => (h.classes.get c).methods) (fun c => (h.classes.get c).superclass) r name

theorem arity? (v : Value) : w'.arity? v = w.arity? v :=
  World.arity?_congr (fun _ _ hf => hf.arity) (fun r => (h.functions.get r).arity)
    (fun r => h.method? r "init") v

theorem display (v : Value) : w'.display v = w.display v :=
  World.display_congr (fun r => (h.functions.get r).displayName) (fun r => (h.classes.get r).name)
    h.instances h.modules v

/-! ### What is done to both -/

theorem writing (c : Console) :
    Worlds ρ Φ { w with console := c } { w' with console := c } := by
  cases h with
  | mk hs hf hc hg => exact .mk hs hf hc hg

theorem log (l : LogLine) : Worlds ρ Φ (w.log l) (w'.log l) := by
  cases h with
  | mk hs hf hc hg => exact .mk hs hf hc hg

theorem updateLoader (loader : Ref .loader) (f : Loader → Loader) :
    Worlds ρ Φ (w.updateLoader loader f) (w'.updateLoader loader f) := by
  cases h with
  | mk hs hf hc hg => exact .mk hs hf hc hg

/-- Interpreters keep their globals. -/
theorem updateInterpreter (home : Ref .interpreter) {f : Interpreter → Interpreter}
    (hkeeps : ∀ i, (f i).globals = i.globals) :
    Worlds ρ Φ (w.updateInterpreter home f) (w'.updateInterpreter home f) := by
  have hglobals : ∀ other, (w.updateInterpreter home f).globals other = w.globals other := by
    intro other
    unfold World.updateInterpreter World.globals
    dsimp only
    rcases Nat.lt_or_ge home.index w.interpreters.size with hlt | hge
    · by_cases he : home = other
      · rw [← he, Arena.get_set_self _ _ hlt, hkeeps]
      · rw [Arena.get_set_of_ne _ _ he]
    · rw [Arena.set_of_le _ _ hge]
  cases h with
  | mk hs hf hc hg => exact .mk hs hf hc fun other => (hglobals other).symm ▸ hg other

theorem publish (home : Ref .interpreter) (notice : Notice) :
    Worlds ρ Φ (w.publish home notice) (w'.publish home notice) := by
  cases notice with
  | log l => exact h.log l
  | error d =>
      have hwarned := h.writing (w.console.warn
        ((w.interpreters.get home).reporter.staticText d.place d.error.message))
      cases h
      exact hwarned.updateInterpreter home
        (f := fun i => { i with reporter := i.reporter.noteStatic }) fun _ => rfl

/-- An error is reported by its line. -/
theorem reportRuntime (home : Ref .interpreter) (e : RuntimeError) (lexeme : String) :
    Worlds ρ Φ (w.reportRuntime home e)
      (w'.reportRuntime home { e with token := { e.token with lexeme := lexeme } }) := by
  have hwarned := h.writing (w.console.warn
    ((w.interpreters.get home).reporter.runtimeText e.token.line e.cause.message))
  cases h
  exact hwarned.updateInterpreter home
    (f := fun i => { i with reporter := i.reporter.noteRuntime }) fun _ => rfl

theorem addInterpreter (unit : String) (loader : Ref .loader) :
    ∃ Ψ, Φ ≤ Ψ ∧ Worlds ρ Ψ (w.addInterpreter unit loader) (w'.addInterpreter unit loader) := by
  have hle := le_grow Φ false w.scopes.next none
  refine ⟨Φ.grow false w.scopes.next none, hle, ?_⟩
  let R : World → World → Prop := fun v v' => v.scopes.next = w.scopes.next ∧ Worlds ρ Φ v v'
  have hsize : w'.interpreters.size = w.interpreters.size := congrArg Arena.size h.interpreters
  refine World.addInterpreter_both (R := R) ⟨rfl, h⟩ unit loader hsize
    (fun l => ⟨rfl, h.log l⟩) ?_
  rintro v v' ⟨hnext, hv⟩
  have hnext' : v'.scopes.next = v.scopes.next := congrArg Ref.mk hv.scopes.size
  have hgrown := hv.scopes.grow false none
  rw [← hnext] at hle ⊢
  have hdefined := hgrown.define (z := clockName) (.inr ⟨rfl, rfl⟩) nofun
    (.clock v.interpreters.next)
  rw [name_false] at hdefined
  have hglobals : ∀ home, (Φ.grow false v.scopes.next none).mark (v.globals home) false ∧
      (Φ.grow false v.scopes.next none).parent (v.globals home) none :=
    fun home => ⟨hle.mark (hv.globals home).1, hle.parent (hv.globals home).2⟩
  unfold World.withInterpreter
  cases hv with
  | mk hs hf hc hg =>
      rw [show Arena.next _ = v.scopes.next from hnext']
      refine .mk hdefined (hf.mono fun _ _ _ h => h.mono hle) (hc.mono fun _ _ _ h => h.mono hle)
        fun home => ?_
      unfold World.globals
      rw [Arena.get_add]
      by_cases he : home = v.interpreters.next
      · rw [if_pos he]
        exact ⟨.inr ⟨rfl, rfl⟩, .inr ⟨rfl, rfl⟩⟩
      · rw [if_neg he]
        exact hglobals home

end

theorem publishAll (h : Worlds ρ Φ w w') (home : Ref .interpreter) (notices : List Notice) :
    Worlds ρ Φ (notices.foldl (fun w notice => w.publish home notice) w)
      (notices.foldl (fun w notice => w.publish home notice) w') :=
  List.foldl_rel h fun notice _ _ _ h => h.publish home notice

theorem enroll (h : Worlds ρ Φ w w') (name : String) (loader : Ref .loader) (place : RealPath) :
    ∃ Ψ, Φ ≤ Ψ ∧ Worlds ρ Ψ (w.enroll name loader place) (w'.enroll name loader place) := by
  obtain ⟨Ψ, hle, hadd⟩ := (h.log (.moduleLoading name place.text)).addInterpreter name loader
  refine ⟨Ψ, hle, ?_⟩
  have hmodule : ∀ {v v' : World} (m : ModuleObject), Worlds ρ Ψ v v' →
      Worlds ρ Ψ { v with modules := v.modules.add m } { v' with modules := v'.modules.add m } := by
    intro v v' m hv
    cases hv with
    | mk hs hf hc hg => exact .mk hs hf hc hg
  unfold World.enroll
  dsimp only
  rw [h.interpreters, h.modules]
  exact (hmodule _ hadd).updateLoader loader _

end Worlds
end Chart
end Renaming
end Treewalk
