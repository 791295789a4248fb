import Mathlib.Logic.Relation
import Treewalk.Proofs.Run.Units

/-!
# What can be reached

Scopes lead to the scopes around them and to the values bound in them, objects to what they keep.
What evaluation somewhere can get hold of is what can be reached from its scope, from the globals of
its interpreter and from the modules that its loader remembers.
-/
namespace Treewalk

/-- What evaluation gets hold of. -/
inductive Thing
  | scope (r : Ref .scope)
  | value (v : Value)

/-- Values that are no objects. -/
def Value.Plain : Value → Prop
  | .nil | .bool _ | .number _ | .text _ => True
  | _ => False

namespace World

/-- A thing was made, or is plain. -/
def Has (w : World) : Thing → Prop
  | .scope r => r.index < w.scopes.size
  | .value (.clock home) => home.index < w.interpreters.size
  | .value (.function r) => r.index < w.functions.size
  | .value (.class r) => r.index < w.classes.size
  | .value (.instance r) => r.index < w.instances.size
  | .value (.module r) => r.index < w.modules.size
  | .value _ => True

theorem has_plain (w : World) {v : Value} (h : v.Plain) : w.Has (.value v) := by
  cases v <;> first | exact trivial | cases h

/-- One thing leads directly to another one. -/
inductive Points (w : World) : Thing → Thing → Prop
  | enclosing {r p : Ref .scope} :
      (w.scopes.get r).parent = some p → Points w (.scope r) (.scope p)
  | bound {r : Ref .scope} {x : String} {v : Value} :
      w.scopes.find? r x = some v → Points w (.scope r) (.value v)
  | closure {r : Ref .function} :
      Points w (.value (.function r)) (.scope (w.functions.get r).scope)
  | superclass {c c' : Ref .class} :
      (w.classes.get c).superclass = some c' → Points w (.value (.class c)) (.value (.class c'))
  | method {c : Ref .class} {x : String} {f : Closure} :
      (w.classes.get c).methods.find? x = some f → Points w (.value (.class c)) (.scope f.scope)
  | made {i : Ref .instance} :
      Points w (.value (.instance i)) (.value (.class (w.instances.get i).classRef))
  | field {i : Ref .instance} {x : String} {v : Value} :
      (w.instances.get i).fields.find? x = some v → Points w (.value (.instance i)) (.value v)
  | members {m : Ref .module} :
      Points w (.value (.module m)) (.scope (w.globals (w.modules.get m).home))

namespace Points
variable {w w' : World} {t : Thing}

theorem of_scope {r : Ref .scope} (h : w'.Points (.scope r) t)
    (hr : w'.scopes.get r = w.scopes.get r) : w.Points (.scope r) t := by
  cases h with
  | enclosing hp => exact .enclosing (hr ▸ hp)
  | bound hx =>
      unfold Scopes.find? at hx
      rw [hr] at hx
      exact .bound hx

theorem of_function {r : Ref .function} (h : w'.Points (.value (.function r)) t)
    (hr : w'.functions.get r = w.functions.get r) : w.Points (.value (.function r)) t := by
  cases h
  rw [hr]
  exact .closure

theorem of_class {r : Ref .class} (h : w'.Points (.value (.class r)) t)
    (hr : w'.classes.get r = w.classes.get r) : w.Points (.value (.class r)) t := by
  cases h with
  | superclass hs => exact .superclass (hr ▸ hs)
  | method hf => exact .method (hr ▸ hf)

theorem of_instance {r : Ref .instance} (h : w'.Points (.value (.instance r)) t)
    (hr : w'.instances.get r = w.instances.get r) : w.Points (.value (.instance r)) t := by
  cases h with
  | made =>
      rw [hr]
      exact .made
  | field hx => exact .field (hr ▸ hx)

theorem of_module {r : Ref .module} (h : w'.Points (.value (.module r)) t)
    (hr : w'.modules.get r = w.modules.get r)
    (hg : w'.globals (w.modules.get r).home = w.globals (w.modules.get r).home) :
    w.Points (.value (.module r)) t := by
  cases h
  rw [hr, hg]
  exact .members

end Points

/-- Where evaluation at a site starts from. -/
inductive Root (w : World) (site : Site) : Thing → Prop
  | scope : Root w site (.scope site.scope)
  | globals : Root w site (.scope (w.globals site.home))
  | cached {p : RealPath} {m : Ref .module} :
      (p, m) ∈ (w.loaders.get (w.interpreters.get site.home).loader).cache →
        Root w site (.value (.module m))

/-- What evaluation at a site can reach. -/
def Reaches (w : World) (site : Site) (t : Thing) : Prop :=
  ∃ root, w.Root site root ∧ Relation.ReflTransGen w.Points root t

/-! ### Closed regions -/

/-- An interpreter that runs with the loader and has its globals among the things. -/
structure Homed (w : World) (loader : Ref .loader) (M : Thing → Prop) (home : Ref .interpreter) :
    Prop where
  exists_ : home.index < w.interpreters.size
  loader : (w.interpreters.get home).loader = loader
  globals : M (.scope (w.globals home))

/-- Things that lead only to each other, and whose code runs in interpreters with one loader. -/
structure Closed (w : World) (loader : Ref .loader) (M : Thing → Prop) : Prop where
  has : ∀ t, M t → w.Has t
  plain : ∀ v : Value, v.Plain → M (.value v)
  points : ∀ t t', M t → w.Points t t' → M t'
  functions : ∀ r : Ref .function, M (.value (.function r)) →
    w.Homed loader M (w.functions.get r).home
  methods : ∀ (c : Ref .class) x f, M (.value (.class c)) →
    (w.classes.get c).methods.find? x = some f → w.Homed loader M f.home
  modules : ∀ m : Ref .module, M (.value (.module m)) →
    w.Homed loader M (w.modules.get m).home
  cached : ∀ p m, (p, m) ∈ (w.loaders.get loader).cache → M (.value (.module m))

namespace Closed
variable {w : World} {L : Ref .loader} {M : Thing → Prop}

theorem ancestor (h : w.Closed L M) {k : Nat} {r r' : Ref .scope} (hr : M (.scope r))
    (hk : w.scopes.ancestor? k r = some r') : M (.scope r') := by
  induction k generalizing r with
  | zero =>
      cases hk
      exact hr
  | succ k ih =>
      unfold Scopes.ancestor? at hk
      cases hp : (w.scopes.get r).parent with
      | none =>
          rw [hp] at hk
          cases hk
      | some p =>
          rw [hp] at hk
          exact ih (h.points _ _ hr (.enclosing hp)) hk

theorem holder (h : w.Closed L M) {x : String} {r r' : Ref .scope} (hr : M (.scope r))
    (hx : w.scopes.holder? r x = some r') : M (.scope r') := by
  have hall : ∀ fuel r, M (.scope r) → w.scopes.holderWithin x fuel r = some r' →
      M (.scope r') := by
    intro fuel
    induction fuel with
    | zero => exact fun _ _ hh => nomatch hh
    | succ fuel ih =>
        intro r hr hh
        unfold Scopes.holderWithin at hh
        by_cases hc : w.scopes.contains r x = true
        · rw [if_pos hc] at hh
          cases hh
          exact hr
        · rw [if_neg hc] at hh
          cases hp : (w.scopes.get r).parent with
          | none =>
              rw [hp] at hh
              cases hh
          | some p =>
              rw [hp] at hh
              exact ih p (h.points _ _ hr (.enclosing hp)) hh
  exact hall _ r hr hx

/-- A method that is found belongs to a class that can be reached. -/
theorem method (h : w.Closed L M) {c : Ref .class} {x : String} {f : Closure}
    (hc : M (.value (.class c))) (hf : w.method? c x = some f) :
    M (.scope f.scope) ∧ w.Homed L M f.home := by
  have hall : ∀ fuel c, M (.value (.class c)) → w.methodWithin? x fuel c = some f →
      M (.scope f.scope) ∧ w.Homed L M f.home := by
    intro fuel
    induction fuel with
    | zero => exact fun _ _ hf => nomatch hf
    | succ fuel ih =>
        intro c hc hf
        unfold World.methodWithin? at hf
        cases hm : (w.classes.get c).methods.find? x with
        | some g =>
            simp only [hm] at hf
            cases hf
            exact ⟨h.points _ _ hc (.method hm), h.methods c x f hc hm⟩
        | none =>
            simp only [hm] at hf
            cases hs : (w.classes.get c).superclass with
            | none =>
                simp only [hs] at hf
                cases hf
            | some c' =>
                simp only [hs] at hf
                exact ih c' (h.points _ _ hc (.superclass hs)) hf
  exact hall _ c hc hf

end Closed

/-! ### Growth -/

/-- More was made, and what functions, classes, modules and interpreters are has stayed. -/
structure Extends (w w' : World) : Prop where
  scopes : w.scopes.size ≤ w'.scopes.size
  functions : w.functions.size ≤ w'.functions.size
  classes : w.classes.size ≤ w'.classes.size
  instances : w.instances.size ≤ w'.instances.size
  modules : w.modules.size ≤ w'.modules.size
  interpreters : w.interpreters.size ≤ w'.interpreters.size
  function : ∀ r : Ref .function, r.index < w.functions.size →
    w'.functions.get r = w.functions.get r
  «class» : ∀ r : Ref .class, r.index < w.classes.size → w'.classes.get r = w.classes.get r
  module : ∀ r : Ref .module, r.index < w.modules.size → w'.modules.get r = w.modules.get r
  globals : ∀ home : Ref .interpreter, home.index < w.interpreters.size →
    w'.globals home = w.globals home
  loader : ∀ home : Ref .interpreter, home.index < w.interpreters.size →
    (w'.interpreters.get home).loader = (w.interpreters.get home).loader

namespace Extends
variable {w w' w'' : World}

theorem refl (w : World) : w.Extends w :=
  ⟨Nat.le_refl _, Nat.le_refl _, Nat.le_refl _, Nat.le_refl _, Nat.le_refl _, Nat.le_refl _,
    fun _ _ => rfl, fun _ _ => rfl, fun _ _ => rfl, fun _ _ => rfl, fun _ _ => rfl⟩

theorem trans (h : w.Extends w') (h' : w'.Extends w'') : w.Extends w'' where
  scopes := Nat.le_trans h.scopes h'.scopes
  functions := Nat.le_trans h.functions h'.functions
  classes := Nat.le_trans h.classes h'.classes
  instances := Nat.le_trans h.instances h'.instances
  modules := Nat.le_trans h.modules h'.modules
  interpreters := Nat.le_trans h.interpreters h'.interpreters
  function r hr := (h'.function r (Nat.lt_of_lt_of_le hr h.functions)).trans (h.function r hr)
  «class» r hr := (h'.class r (Nat.lt_of_lt_of_le hr h.classes)).trans (h.class r hr)
  module r hr := (h'.module r (Nat.lt_of_lt_of_le hr h.modules)).trans (h.module r hr)
  globals r hr := (h'.globals r (Nat.lt_of_lt_of_le hr h.interpreters)).trans (h.globals r hr)
  loader r hr := (h'.loader r (Nat.lt_of_lt_of_le hr h.interpreters)).trans (h.loader r hr)

theorem has (h : w.Extends w') {t : Thing} (ht : w.Has t) : w'.Has t := by
  cases t with
  | scope r => exact Nat.lt_of_lt_of_le ht h.scopes
  | value v =>
      cases v with
      | clock home => exact Nat.lt_of_lt_of_le ht h.interpreters
      | function r => exact Nat.lt_of_lt_of_le ht h.functions
      | «class» r => exact Nat.lt_of_lt_of_le ht h.classes
      | «instance» r => exact Nat.lt_of_lt_of_le ht h.instances
      | module r => exact Nat.lt_of_lt_of_le ht h.modules
      | _ => trivial

end Extends

/-- The objects are the same, as are the interpreters' globals and loaders and what these remember. -/
structure SameThings (w w' : World) : Prop where
  scopes : w'.scopes = w.scopes
  functions : w'.functions = w.functions
  classes : w'.classes = w.classes
  instances : w'.instances = w.instances
  modules : w'.modules = w.modules
  size : w'.interpreters.size = w.interpreters.size
  globals : ∀ home, w'.globals home = w.globals home
  homes : ∀ home, (w'.interpreters.get home).loader = (w.interpreters.get home).loader
  caches : ∀ l, (w'.loaders.get l).cache = (w.loaders.get l).cache

theorem SameObjects.things {w w' : World} (h : w.SameObjects w') : w.SameThings w' :=
  ⟨h.scopes, h.functions, h.classes, h.instances, h.modules, h.size, h.globals, h.homes,
    fun _ => by rw [h.loaders]⟩

theorem SameThings.grown {w w' : World} (h : w.SameThings w') : w.Extends w' where
  scopes := Nat.le_of_eq (congrArg Arena.size h.scopes).symm
  functions := Nat.le_of_eq (congrArg Arena.size h.functions).symm
  classes := Nat.le_of_eq (congrArg Arena.size h.classes).symm
  instances := Nat.le_of_eq (congrArg Arena.size h.instances).symm
  modules := Nat.le_of_eq (congrArg Arena.size h.modules).symm
  interpreters := Nat.le_of_eq h.size.symm
  function r _ := by rw [h.functions]
  «class» r _ := by rw [h.classes]
  module r _ := by rw [h.modules]
  globals home _ := h.globals home
  loader home _ := h.homes home

end World
end Treewalk
