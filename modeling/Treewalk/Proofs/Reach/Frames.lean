import Treewalk.Proofs.Reach.Things

/-!
# Framed changes

A region is closed in one world. In later worlds everything else that was there is untouched, and the
region together with what was made since is closed again. This is kept by every change that is made
within.
-/
namespace Treewalk

/-- What is there, and belongs to the region if it was there before. -/
def World.Mine (w : World) (M : Thing → Prop) (w₀ : World) (t : Thing) : Prop :=
  w.Has t ∧ (w₀.Has t → M t)

/-- A world to which the first one was changed within a region. -/
structure Framed (M : Thing → Prop) (w₀ : World) (L : Ref .loader) (w : World) : Prop where
  grown : w₀.Extends w
  scopes : ∀ r : Ref .scope, w₀.Has (.scope r) → ¬ M (.scope r) →
    w.scopes.get r = w₀.scopes.get r
  instances : ∀ r : Ref .instance, w₀.Has (.value (.instance r)) → ¬ M (.value (.instance r)) →
    w.instances.get r = w₀.instances.get r
  caches : ∀ l, l ≠ L → (w.loaders.get l).cache = (w₀.loaders.get l).cache
  homes : ∀ home : Ref .interpreter, w₀.interpreters.size ≤ home.index →
    home.index < w.interpreters.size → w.Homed L (w.Mine M w₀) home
  closed : w.Closed L (w.Mine M w₀)

section
variable {M : Thing → Prop} {w₀ w w' : World} {L : Ref .loader}

theorem World.Mine.grow {t : Thing} (h : w.Mine M w₀ t) (hw : w.Extends w') : w'.Mine M w₀ t :=
  ⟨hw.has h.1, h.2⟩

theorem World.Homed.grow {home : Ref .interpreter} (h : w.Homed L (w.Mine M w₀) home)
    (hw : w.Extends w') : w'.Homed L (w'.Mine M w₀) home where
  exists_ := Nat.lt_of_lt_of_le h.exists_ hw.interpreters
  loader := (hw.loader home h.exists_).trans h.loader
  globals := by
    rw [hw.globals home h.exists_]
    exact h.globals.grow hw

/-- What was made since is not from before. -/
theorem Framed.fresh (h : Framed M w₀ L w) {t : Thing} (ht : w'.Has t) (hnew : ¬ w.Has t) :
    w'.Mine M w₀ t := ⟨ht, fun h₀ => (hnew (h.grown.has h₀)).elim⟩

/-- Every region is framed in its own world. -/
theorem Framed.start (h : w₀.Closed L M) : Framed M w₀ L w₀ := by
  have hmine : ∀ t, w₀.Mine M w₀ t ↔ M t := fun t => ⟨fun ht => ht.2 ht.1, fun ht => ⟨h.has t ht, fun _ => ht⟩⟩
  have hhomed : ∀ home, w₀.Homed L M home → w₀.Homed L (w₀.Mine M w₀) home := fun home hh =>
    ⟨hh.exists_, hh.loader, (hmine _).mpr hh.globals⟩
  constructor
  case grown => exact .refl w₀
  case scopes => exact fun _ _ _ => rfl
  case instances => exact fun _ _ _ => rfl
  case caches => exact fun _ _ => rfl
  case homes => exact fun home hge hlt => (Nat.not_lt_of_le hge hlt).elim
  case closed =>
    constructor
    case has => exact fun t ht => ht.1
    case plain => exact fun v hv => (hmine _).mpr (h.plain v hv)
    case points => exact fun t t' ht hp => (hmine _).mpr (h.points t t' ((hmine _).mp ht) hp)
    case functions => exact fun r hr => hhomed _ (h.functions r ((hmine _).mp hr))
    case methods => exact fun c x f hc hf => hhomed _ (h.methods c x f ((hmine _).mp hc) hf)
    case modules => exact fun m hm => hhomed _ (h.modules m ((hmine _).mp hm))
    case cached => exact fun p m hm => (hmine _).mpr (h.cached p m hm)

/-- A change within the region: what it makes new leads to what is within, and it touches nothing
else. -/
structure Change (M : Thing → Prop) (w₀ : World) (L : Ref .loader) (w w' : World) : Prop where
  grown : w.Extends w'
  points : ∀ t t', w'.Mine M w₀ t → w'.Points t t' → w.Has t ∧ w.Points t t' ∨ w'.Mine M w₀ t'
  scopes : ∀ r : Ref .scope, w.Has (.scope r) → ¬ w.Mine M w₀ (.scope r) →
    w'.scopes.get r = w.scopes.get r
  instances : ∀ r : Ref .instance, w.Has (.value (.instance r)) →
    ¬ w.Mine M w₀ (.value (.instance r)) → w'.instances.get r = w.instances.get r
  caches : ∀ l, l ≠ L → (w'.loaders.get l).cache = (w.loaders.get l).cache
  homes : ∀ home : Ref .interpreter, w.interpreters.size ≤ home.index →
    home.index < w'.interpreters.size → w'.Homed L (w'.Mine M w₀) home
  functions : ∀ r : Ref .function, w.functions.size ≤ r.index → r.index < w'.functions.size →
    w'.Homed L (w'.Mine M w₀) (w'.functions.get r).home
  methods : ∀ c : Ref .class, w.classes.size ≤ c.index → c.index < w'.classes.size →
    ∀ x f, (w'.classes.get c).methods.find? x = some f →
      w'.Homed L (w'.Mine M w₀) f.home
  modules : ∀ m : Ref .module, w.modules.size ≤ m.index → m.index < w'.modules.size →
    w'.Homed L (w'.Mine M w₀) (w'.modules.get m).home
  cached : ∀ p m, (p, m) ∈ (w'.loaders.get L).cache →
    (p, m) ∈ (w.loaders.get L).cache ∨ w'.Mine M w₀ (.value (.module m))

theorem Framed.change (h : Framed M w₀ L w) (hc : Change M w₀ L w w') : Framed M w₀ L w' := by
  have hbefore : ∀ {t}, w'.Mine M w₀ t → w.Has t → w.Mine M w₀ t := fun ht hw => ⟨hw, ht.2⟩
  constructor
  case grown => exact h.grown.trans hc.grown
  case scopes =>
    intro r hr hM
    exact (hc.scopes r (h.grown.has hr) fun hm => hM (hm.2 hr)).trans (h.scopes r hr hM)
  case instances =>
    intro r hr hM
    exact (hc.instances r (h.grown.has hr) fun hm => hM (hm.2 hr)).trans (h.instances r hr hM)
  case caches => exact fun l hl => (hc.caches l hl).trans (h.caches l hl)
  case homes =>
    intro home hge hlt
    rcases Nat.lt_or_ge home.index w.interpreters.size with hold | hnew
    · exact (h.homes home hge hold).grow hc.grown
    · exact hc.homes home hnew hlt
  case closed =>
    constructor
    case has => exact fun t ht => ht.1
    case plain =>
      exact fun v hv => (h.closed.plain v hv).grow hc.grown
    case points =>
      intro t t' ht hp
      rcases hc.points t t' ht hp with ⟨hold, hp⟩ | hnew
      · exact (h.closed.points t t' (hbefore ht hold) hp).grow hc.grown
      · exact hnew
    case functions =>
      intro r hr
      rcases Nat.lt_or_ge r.index w.functions.size with hold | hnew
      · rw [hc.grown.function r hold]
        exact (h.closed.functions r (hbefore hr hold)).grow hc.grown
      · exact hc.functions r hnew hr.1
    case methods =>
      intro c x f hm hf
      rcases Nat.lt_or_ge c.index w.classes.size with hold | hnew
      · rw [hc.grown.class c hold] at hf
        exact (h.closed.methods c x f (hbefore hm hold) hf).grow hc.grown
      · exact hc.methods c hnew hm.1 x f hf
    case modules =>
      intro m hm
      rcases Nat.lt_or_ge m.index w.modules.size with hold | hnew
      · rw [hc.grown.module m hold]
        exact (h.closed.modules m (hbefore hm hold)).grow hc.grown
      · exact hc.modules m hnew hm.1
    case cached =>
      intro p m hm
      rcases hc.cached p m hm with hold | hnew
      · exact (h.closed.cached p m hold).grow hc.grown
      · exact hnew

/-- A change of scopes and instances that makes nothing with a home. -/
theorem Change.light (hgrown : w.Extends w')
    (hscope : ∀ r t, w'.Mine M w₀ (.scope r) → w'.Points (.scope r) t →
      w.Has (.scope r) ∧ w.Points (.scope r) t ∨ w'.Mine M w₀ t)
    (hinstance : ∀ i t, w'.Mine M w₀ (.value (.instance i)) →
      w'.Points (.value (.instance i)) t →
      w.Has (.value (.instance i)) ∧ w.Points (.value (.instance i)) t ∨ w'.Mine M w₀ t)
    (hscopes : ∀ r : Ref .scope, w.Has (.scope r) → ¬ w.Mine M w₀ (.scope r) →
      w'.scopes.get r = w.scopes.get r)
    (hinstances : ∀ r : Ref .instance, w.Has (.value (.instance r)) →
      ¬ w.Mine M w₀ (.value (.instance r)) → w'.instances.get r = w.instances.get r)
    (hunits : w.SameUnits w') (hfunctions : w'.functions = w.functions)
    (hclasses : w'.classes = w.classes) : Change M w₀ L w w' := by
  constructor
  case grown => exact hgrown
  case points =>
    intro t t' ht hp
    cases t with
    | scope r => exact hscope r t' ht hp
    | value v =>
        cases v with
        | function r =>
            exact .inl ⟨Nat.lt_of_lt_of_eq ht.1 (congrArg Arena.size hfunctions),
              hp.of_function (by rw [hfunctions])⟩
        | «class» r =>
            exact .inl ⟨Nat.lt_of_lt_of_eq ht.1 (congrArg Arena.size hclasses),
              hp.of_class (by rw [hclasses])⟩
        | «instance» r => exact hinstance r t' ht hp
        | module r =>
            refine .inl ⟨Nat.lt_of_lt_of_eq ht.1 (congrArg Arena.size hunits.modules),
              hp.of_module (by rw [hunits.modules]) ?_⟩
            unfold World.globals
            rw [hunits.interpreters]
        | _ => cases hp
  case scopes => exact hscopes
  case instances => exact hinstances
  case caches => exact fun l _ => by rw [hunits.loaders]
  case homes =>
    rw [hunits.interpreters]
    exact fun home hge hlt => (Nat.not_lt_of_le hge hlt).elim
  case functions =>
    rw [hfunctions]
    exact fun r hge hlt => (Nat.not_lt_of_le hge hlt).elim
  case methods =>
    rw [hclasses]
    exact fun c hge hlt => (Nat.not_lt_of_le hge hlt).elim
  case modules =>
    rw [hunits.modules]
    exact fun m hge hlt => (Nat.not_lt_of_le hge hlt).elim
  case cached =>
    rw [hunits.loaders]
    exact fun p m hm => .inl hm

theorem Scopes.find?_define_cases {α : Type} {s : Scopes α} {r r' : Ref .scope} {x y : String}
    {a b : α} (h : (s.define r x a).find? r' y = some b) :
    r' = r ∧ b = a ∨ s.find? r' y = some b := by
  rcases Nat.lt_or_ge r.index s.size with hlt | hge
  · by_cases hr : r' = r
    · subst hr
      unfold find? define at h
      rw [Arena.get_set_self _ _ hlt, Bindings.find?_insert] at h
      by_cases hx : x = y
      · rw [if_pos hx] at h
        exact .inl ⟨rfl, (Option.some.inj h).symm⟩
      · rw [if_neg hx] at h
        exact .inr h
    · unfold find? at h
      rw [get_define_of_ne _ _ _ (Ne.symm hr)] at h
      exact .inr h
  · unfold define at h
    rw [Arena.set_of_le _ _ hge] at h
    exact .inr h

/-! ### Changes -/

namespace Change

/-- A name is bound in a scope. -/
theorem define {r : Ref .scope} (x : String) {v : Value} (hr : w.Mine M w₀ (.scope r))
    (hv : w.Mine M w₀ (.value v)) :
    Change M w₀ L w { w with scopes := w.scopes.define r x v } := by
  have hsize : (w.scopes.define r x v).size = w.scopes.size := Arena.size_set ..
  have hgrown : w.Extends { w with scopes := w.scopes.define r x v } :=
    { World.Extends.refl w with scopes := Nat.le_of_eq hsize.symm }
  apply Change.light hgrown
  case hscope =>
    intro r' t ht hp
    have hhas : w.Has (.scope r') := Nat.lt_of_lt_of_eq ht.1 hsize
    cases hp with
    | enclosing hp => exact .inl ⟨hhas, .enclosing ((w.scopes.parent_of_define r r' x v).symm.trans hp)⟩
    | bound hx =>
        rcases Scopes.find?_define_cases hx with ⟨-, rfl⟩ | hx
        · exact .inr (hv.grow hgrown)
        · exact .inl ⟨hhas, .bound hx⟩
  case hinstance => exact fun i t ht hp => .inl ⟨ht.1, hp.of_instance rfl⟩
  case hscopes =>
    intro r' _ hM
    exact Scopes.get_define_of_ne _ _ _ fun he => hM (he ▸ hr)
  case hinstances => exact fun _ _ _ => rfl
  case hunits => exact ⟨rfl, rfl, rfl, rfl⟩
  case hfunctions => rfl
  case hclasses => rfl

/-- A scope is made. -/
theorem newScope {p : Ref .scope} (hp : w.Mine M w₀ (.scope p)) :
    Change M w₀ L w { w with scopes := w.scopes.addChild (some p) } := by
  have hgrown : w.Extends { w with scopes := w.scopes.addChild (some p) } :=
    { World.Extends.refl w with
      scopes := Nat.le_of_lt (Nat.lt_of_lt_of_eq (Nat.lt_succ_self _) (Arena.size_add ..).symm) }
  apply Change.light hgrown
  case hscope =>
    intro r t ht hr
    rcases w.scopes.get_add_cases _ ht.1 with ⟨hlt, hget⟩ | ⟨-, hget⟩
    · exact .inl ⟨hlt, hr.of_scope hget⟩
    · cases hr with
      | enclosing hq =>
          change ((w.scopes.add _).get r).parent = _ at hq
          rw [hget] at hq
          cases hq
          exact .inr (hp.grow hgrown)
      | bound hx =>
          change ((w.scopes.add _).get r).values.find? _ = _ at hx
          rw [hget] at hx
          cases hx
  case hinstance => exact fun i t ht hp => .inl ⟨ht.1, hp.of_instance rfl⟩
  case hscopes => exact fun r hr _ => w.scopes.get_add_of_lt _ hr
  case hinstances => exact fun _ _ _ => rfl
  case hunits => exact ⟨rfl, rfl, rfl, rfl⟩
  case hfunctions => rfl
  case hclasses => rfl

/-- An instance is made. -/
theorem newInstance {c : Ref .class} (hc : w.Mine M w₀ (.value (.class c))) :
    Change M w₀ L w { w with instances := w.instances.add { classRef := c } } := by
  have hgrown : w.Extends { w with instances := w.instances.add { classRef := c } } :=
    { World.Extends.refl w with
      instances := Nat.le_of_lt (Nat.lt_of_lt_of_eq (Nat.lt_succ_self _) (Arena.size_add ..).symm) }
  apply Change.light hgrown
  case hscope => exact fun r t ht hp => .inl ⟨ht.1, hp.of_scope rfl⟩
  case hinstance =>
    intro i t ht hi
    rcases w.instances.get_add_cases _ ht.1 with ⟨hlt, hget⟩ | ⟨-, hget⟩
    · exact .inl ⟨hlt, hi.of_instance hget⟩
    · cases hi with
      | made =>
          refine .inr ?_
          change World.Mine _ M w₀ (.value (.class ((w.instances.add _).get i).classRef))
          rw [hget]
          exact hc.grow hgrown
      | field hx =>
          change ((w.instances.add _).get i).fields.find? _ = _ at hx
          rw [hget] at hx
          cases hx
  case hscopes => exact fun _ _ _ => rfl
  case hinstances => exact fun r hr _ => w.instances.get_add_of_lt _ hr
  case hunits => exact ⟨rfl, rfl, rfl, rfl⟩
  case hfunctions => rfl
  case hclasses => rfl

/-- A field of an instance is set. -/
theorem setField {r : Ref .instance} (x : String) {v : Value}
    (hr : w.Mine M w₀ (.value (.instance r))) (hv : w.Mine M w₀ (.value v)) :
    Change M w₀ L w { w with instances := w.instances.set r { w.instances.get r with
      fields := (w.instances.get r).fields.insert x v } } := by
  have hsize : (w.instances.set r { w.instances.get r with
      fields := (w.instances.get r).fields.insert x v }).size = w.instances.size := Arena.size_set ..
  have hgrown : w.Extends { w with instances := w.instances.set r { w.instances.get r with
      fields := (w.instances.get r).fields.insert x v } } :=
    { World.Extends.refl w with instances := Nat.le_of_eq hsize.symm }
  apply Change.light hgrown
  case hscope => exact fun r t ht hp => .inl ⟨ht.1, hp.of_scope rfl⟩
  case hinstance =>
    intro i t ht hi
    have hhas : w.Has (.value (.instance i)) := Nat.lt_of_lt_of_eq ht.1 hsize
    by_cases he : r = i
    · subst he
      have hget := w.instances.get_set_self { w.instances.get r with
        fields := (w.instances.get r).fields.insert x v } hhas
      cases hi with
      | made =>
          refine .inl ⟨hhas, ?_⟩
          change w.Points _ (.value (.class ((w.instances.set r _).get r).classRef))
          rw [hget]
          exact .made
      | field hy =>
          change ((w.instances.set r _).get r).fields.find? _ = _ at hy
          rw [hget, Bindings.find?_insert] at hy
          split at hy
          · cases hy
            exact .inr (hv.grow hgrown)
          · exact .inl ⟨hhas, .field hy⟩
    · exact .inl ⟨hhas, hi.of_instance (w.instances.get_set_of_ne _ he)⟩
  case hscopes => exact fun _ _ _ => rfl
  case hinstances => exact fun i _ hM => w.instances.get_set_of_ne _ fun he => hM (he ▸ hr)
  case hunits => exact ⟨rfl, rfl, rfl, rfl⟩
  case hfunctions => rfl
  case hclasses => rfl

/-- A function is made. -/
theorem newFunction {f : Closure} (hscope : w.Mine M w₀ (.scope f.scope))
    (hhome : w.Homed L (w.Mine M w₀) f.home) :
    Change M w₀ L w { w with functions := w.functions.add f } := by
  have hgrown : w.Extends { w with functions := w.functions.add f } :=
    { World.Extends.refl w with
      functions := Nat.le_of_lt (Nat.lt_of_lt_of_eq (Nat.lt_succ_self _) (Arena.size_add ..).symm)
      function := fun r hr => w.functions.get_add_of_lt _ hr }
  constructor
  case grown => exact hgrown
  case points =>
    intro t t' ht hp
    cases t with
    | scope r => exact .inl ⟨ht.1, hp.of_scope rfl⟩
    | value v =>
        cases v with
        | function r =>
            rcases w.functions.get_add_cases _ ht.1 with ⟨hlt, hget⟩ | ⟨-, hget⟩
            · exact .inl ⟨hlt, hp.of_function hget⟩
            · cases hp
              refine .inr ?_
              change World.Mine _ M w₀ (.scope ((w.functions.add f).get r).scope)
              rw [hget]
              exact hscope.grow hgrown
        | «class» r => exact .inl ⟨ht.1, hp.of_class rfl⟩
        | «instance» r => exact .inl ⟨ht.1, hp.of_instance rfl⟩
        | module r => exact .inl ⟨ht.1, hp.of_module rfl rfl⟩
        | _ => cases hp
  case scopes => exact fun _ _ _ => rfl
  case instances => exact fun _ _ _ => rfl
  case caches => exact fun _ _ => rfl
  case homes => exact fun home hge hlt => (Nat.not_lt_of_le hge hlt).elim
  case functions =>
    intro r hge hlt
    have hget := ((w.functions.get_add_cases _ hlt).resolve_left fun h =>
      Nat.not_lt_of_le hge h.1).2
    change World.Homed _ L _ ((w.functions.add f).get r).home
    rw [hget]
    exact hhome.grow hgrown
  case methods => exact fun c hge hlt => (Nat.not_lt_of_le hge hlt).elim
  case modules => exact fun m hge hlt => (Nat.not_lt_of_le hge hlt).elim
  case cached => exact fun p m hm => .inl hm

/-- A class is made. -/
theorem newClass {c : ClassObject}
    (hsuper : ∀ s, c.superclass = some s → w.Mine M w₀ (.value (.class s)))
    (hmethods : ∀ x f, c.methods.find? x = some f →
      w.Mine M w₀ (.scope f.scope) ∧ w.Homed L (w.Mine M w₀) f.home) :
    Change M w₀ L w { w with classes := w.classes.add c } := by
  have hgrown : w.Extends { w with classes := w.classes.add c } :=
    { World.Extends.refl w with
      classes := Nat.le_of_lt (Nat.lt_of_lt_of_eq (Nat.lt_succ_self _) (Arena.size_add ..).symm)
      «class» := fun r hr => w.classes.get_add_of_lt _ hr }
  constructor
  case grown => exact hgrown
  case points =>
    intro t t' ht hp
    cases t with
    | scope r => exact .inl ⟨ht.1, hp.of_scope rfl⟩
    | value v =>
        cases v with
        | function r => exact .inl ⟨ht.1, hp.of_function rfl⟩
        | «class» r =>
            rcases w.classes.get_add_cases _ ht.1 with ⟨hlt, hget⟩ | ⟨-, hget⟩
            · exact .inl ⟨hlt, hp.of_class hget⟩
            · cases hp with
              | superclass hs =>
                  change ((w.classes.add c).get r).superclass = _ at hs
                  rw [hget] at hs
                  exact .inr ((hsuper _ hs).grow hgrown)
              | method hf =>
                  change ((w.classes.add c).get r).methods.find? _ = _ at hf
                  rw [hget] at hf
                  exact .inr ((hmethods _ _ hf).1.grow hgrown)
        | «instance» r => exact .inl ⟨ht.1, hp.of_instance rfl⟩
        | module r => exact .inl ⟨ht.1, hp.of_module rfl rfl⟩
        | _ => cases hp
  case scopes => exact fun _ _ _ => rfl
  case instances => exact fun _ _ _ => rfl
  case caches => exact fun _ _ => rfl
  case homes => exact fun home hge hlt => (Nat.not_lt_of_le hge hlt).elim
  case functions => exact fun r hge hlt => (Nat.not_lt_of_le hge hlt).elim
  case methods =>
    intro r hge hlt x f hf
    have hget := ((w.classes.get_add_cases _ hlt).resolve_left fun h =>
      Nat.not_lt_of_le hge h.1).2
    change ((w.classes.add c).get r).methods.find? x = some f at hf
    rw [hget] at hf
    exact (hmethods x f hf).2.grow hgrown
  case modules => exact fun m hge hlt => (Nat.not_lt_of_le hge hlt).elim
  case cached => exact fun p m hm => .inl hm

/-- Nothing changes that leads anywhere. -/
theorem things (h : w.SameThings w') : Change M w₀ L w w' := by
  have hsize : ∀ {k : RefKind} {α : Type} {a b : Arena k α} {n : Nat}, b = a → a.size ≤ n →
      n < b.size → False := fun he hge hlt => Nat.not_lt_of_le hge (he ▸ hlt)
  constructor
  case grown => exact h.grown
  case points =>
    intro t t' ht hp
    have hhas : w.Has t := by
      cases t with
      | scope r => exact Nat.lt_of_lt_of_eq ht.1 (congrArg Arena.size h.scopes)
      | value v =>
          cases v with
          | clock home => exact Nat.lt_of_lt_of_eq ht.1 h.size
          | function r => exact Nat.lt_of_lt_of_eq ht.1 (congrArg Arena.size h.functions)
          | «class» r => exact Nat.lt_of_lt_of_eq ht.1 (congrArg Arena.size h.classes)
          | «instance» r => exact Nat.lt_of_lt_of_eq ht.1 (congrArg Arena.size h.instances)
          | module r => exact Nat.lt_of_lt_of_eq ht.1 (congrArg Arena.size h.modules)
          | _ => trivial
    refine .inl ⟨hhas, ?_⟩
    cases t with
    | scope r => exact hp.of_scope (by rw [h.scopes])
    | value v =>
        cases v with
        | function r => exact hp.of_function (by rw [h.functions])
        | «class» r => exact hp.of_class (by rw [h.classes])
        | «instance» r => exact hp.of_instance (by rw [h.instances])
        | module r => exact hp.of_module (by rw [h.modules]) (h.globals _)
        | _ => cases hp
  case scopes => exact fun r _ _ => by rw [h.scopes]
  case instances => exact fun r _ _ => by rw [h.instances]
  case caches => exact fun l _ => h.caches l
  case homes => exact fun home hge hlt => (Nat.not_lt_of_le hge (h.size ▸ hlt)).elim
  case functions => exact fun r hge hlt => (hsize h.functions hge hlt).elim
  case methods => exact fun c hge hlt => (hsize h.classes hge hlt).elim
  case modules => exact fun m hge hlt => (hsize h.modules hge hlt).elim
  case cached => exact fun p m hm => .inl (h.caches L ▸ hm)

theorem objects (h : w.SameObjects w') : Change M w₀ L w w' := .things h.things

/-- An interpreter is made, with globals of its own. -/
theorem addInterpreter (h : Framed M w₀ L w) (unit : String) :
    Change M w₀ L w (w.addInterpreter unit L) := by
  obtain ⟨console, hadd⟩ := w.addInterpreter_eq unit L
  rw [hadd]
  let w' : World := { w with
    scopes := (w.scopes.addChild none).define w.scopes.next clockName (.clock w.interpreters.next)
    interpreters := w.interpreters.add
      { reporter := { unit := unit }, globals := w.scopes.next, loader := L }
    console := console }
  change Change M w₀ L w w'
  have hscopes : w'.scopes.size = w.scopes.size + 1 := Scopes.size_next ..
  have hsize : w'.interpreters.size = w.interpreters.size + 1 := Arena.size_add ..
  have hold : ∀ home : Ref .interpreter, home.index < w.interpreters.size →
      w'.interpreters.get home = w.interpreters.get home := fun _ => Arena.get_add_of_lt _ _
  have hgrown : w.Extends w' :=
    { World.Extends.refl w with
      scopes := Nat.le_of_lt (Nat.lt_of_lt_of_eq (Nat.lt_succ_self _) hscopes.symm)
      interpreters := Nat.le_of_lt (Nat.lt_of_lt_of_eq (Nat.lt_succ_self _) hsize.symm)
      globals := fun home hi => congrArg Interpreter.globals (hold home hi)
      loader := fun home hi => congrArg Interpreter.loader (hold home hi) }
  have hnext : w'.Mine M w₀ (.scope w.scopes.next) :=
    h.fresh (Nat.lt_of_lt_of_eq (Nat.lt_succ_self _) hscopes.symm) (Nat.lt_irrefl _)
  have hclock : w'.Mine M w₀ (.value (.clock w.interpreters.next)) :=
    h.fresh (Nat.lt_of_lt_of_eq (Nat.lt_succ_self _) hsize.symm) (Nat.lt_irrefl _)
  constructor
  case grown => exact hgrown
  case points =>
    intro t t' ht hp
    cases t with
    | scope r =>
        rcases Nat.lt_succ_iff_lt_or_eq.mp (Nat.lt_of_lt_of_eq ht.1 hscopes) with hlt | he
        · exact .inl ⟨hlt, hp.of_scope (w.scopes.get_next_of_lt _ _ _ hlt)⟩
        · -- The new scope has no parent and binds nothing but the clock.
          cases hp with
          | enclosing hq =>
              have hparent := (w.scopes.parent_addRoot clockName _ r).symm.trans hq
              exact (Nat.ne_of_lt (Scopes.lt_of_parent hparent) he).elim
          | bound hx =>
              rcases Scopes.find?_next_cases hx with hx | ⟨-, -, rfl⟩
              · exact (Nat.ne_of_lt (Scopes.lt_of_find? hx) he).elim
              · exact .inr hclock
    | value v =>
        cases v with
        | function r => exact .inl ⟨ht.1, hp.of_function rfl⟩
        | «class» r => exact .inl ⟨ht.1, hp.of_class rfl⟩
        | «instance» r => exact .inl ⟨ht.1, hp.of_instance rfl⟩
        | module r =>
            have hhome := (h.closed.modules r ⟨ht.1, ht.2⟩).exists_
            exact .inl ⟨ht.1, hp.of_module rfl (hgrown.globals _ hhome)⟩
        | _ => cases hp
  case scopes => exact fun r hr _ => w.scopes.get_next_of_lt _ _ _ hr
  case instances => exact fun _ _ _ => rfl
  case caches => exact fun _ _ => rfl
  case homes =>
    intro home hge hlt
    obtain ⟨rfl, hget⟩ := (w.interpreters.get_add_cases _ hlt).resolve_left fun hl =>
      Nat.not_lt_of_le hge hl.1
    constructor
    case exists_ => exact hlt
    case loader => exact congrArg Interpreter.loader hget
    case globals =>
      have hglobals : w'.globals w.interpreters.next = w.scopes.next :=
        congrArg Interpreter.globals hget
      rw [hglobals]
      exact hnext
  case functions => exact fun r hge hlt => (Nat.not_lt_of_le hge hlt).elim
  case methods => exact fun c hge hlt => (Nat.not_lt_of_le hge hlt).elim
  case modules => exact fun m hge hlt => (Nat.not_lt_of_le hge hlt).elim
  case cached => exact fun p m hm => .inl hm

/-- A module is made for an interpreter. -/
theorem newModule {m : ModuleObject} (hhome : w.Homed L (w.Mine M w₀) m.home) :
    Change M w₀ L w { w with modules := w.modules.add m } := by
  have hgrown : w.Extends { w with modules := w.modules.add m } :=
    { World.Extends.refl w with
      modules := Nat.le_of_lt (Nat.lt_of_lt_of_eq (Nat.lt_succ_self _) (Arena.size_add ..).symm)
      module := fun r hr => w.modules.get_add_of_lt _ hr }
  constructor
  case grown => exact hgrown
  case points =>
    intro t t' ht hp
    cases t with
    | scope r => exact .inl ⟨ht.1, hp.of_scope rfl⟩
    | value v =>
        cases v with
        | function r => exact .inl ⟨ht.1, hp.of_function rfl⟩
        | «class» r => exact .inl ⟨ht.1, hp.of_class rfl⟩
        | «instance» r => exact .inl ⟨ht.1, hp.of_instance rfl⟩
        | module r =>
            rcases w.modules.get_add_cases _ ht.1 with ⟨hlt, hget⟩ | ⟨-, hget⟩
            · exact .inl ⟨hlt, hp.of_module hget rfl⟩
            · cases hp
              refine .inr ?_
              change World.Mine _ M w₀ (.scope (w.globals ((w.modules.add m).get r).home))
              rw [hget]
              exact hhome.globals.grow hgrown
        | _ => cases hp
  case scopes => exact fun _ _ _ => rfl
  case instances => exact fun _ _ _ => rfl
  case caches => exact fun _ _ => rfl
  case homes => exact fun home hge hlt => (Nat.not_lt_of_le hge hlt).elim
  case functions => exact fun r hge hlt => (Nat.not_lt_of_le hge hlt).elim
  case methods => exact fun c hge hlt => (Nat.not_lt_of_le hge hlt).elim
  case modules =>
    intro r hge hlt
    have hget := ((w.modules.get_add_cases _ hlt).resolve_left fun h =>
      Nat.not_lt_of_le hge h.1).2
    change World.Homed _ L _ ((w.modules.add m).get r).home
    rw [hget]
    exact hhome.grow hgrown
  case cached => exact fun p m hm => .inl hm

/-- The loader remembers something else. -/
theorem updateLoader {f : Loader → Loader}
    (hf : ∀ p m, (p, m) ∈ ((w.updateLoader L f).loaders.get L).cache →
      (p, m) ∈ (w.loaders.get L).cache ∨ w.Mine M w₀ (.value (.module m))) :
    Change M w₀ L w (w.updateLoader L f) := by
  have hgrown : w.Extends (w.updateLoader L f) := { World.Extends.refl w with }
  constructor
  case grown => exact hgrown
  case points =>
    intro t t' ht hp
    refine .inl ⟨ht.1, ?_⟩
    cases t with
    | scope r => exact hp.of_scope rfl
    | value v =>
        cases v with
        | function r => exact hp.of_function rfl
        | «class» r => exact hp.of_class rfl
        | «instance» r => exact hp.of_instance rfl
        | module r => exact hp.of_module rfl rfl
        | _ => cases hp
  case scopes => exact fun _ _ _ => rfl
  case instances => exact fun _ _ _ => rfl
  case caches => exact fun l hl => congrArg Loader.cache (Arena.get_set_of_ne _ _ (Ne.symm hl))
  case homes => exact fun home hge hlt => (Nat.not_lt_of_le hge hlt).elim
  case functions => exact fun r hge hlt => (Nat.not_lt_of_le hge hlt).elim
  case methods => exact fun c hge hlt => (Nat.not_lt_of_le hge hlt).elim
  case modules => exact fun m hge hlt => (Nat.not_lt_of_le hge hlt).elim
  case cached => exact fun p m hm => (hf p m hm).imp_right (.grow · hgrown)

end Change

/-- A file gets a module, with an interpreter of its own. -/
theorem Framed.enroll (h : Framed M w₀ L w) (unit : String) (place : RealPath) :
    Framed M w₀ L (w.enroll unit L place) ∧ w.Extends (w.enroll unit L place) ∧
      (w.enroll unit L place).Homed L ((w.enroll unit L place).Mine M w₀) w.interpreters.next ∧
      (w.enroll unit L place).Mine M w₀ (.value (.module w.modules.next)) := by
  let logged := w.log (.moduleLoading unit place.text)
  let added := logged.addInterpreter unit L
  let made := { added with modules := added.modules.add ⟨unit, place.text, w.interpreters.next⟩ }
  have hmodules : added.modules = w.modules := by
    obtain ⟨console, he⟩ := logged.addInterpreter_eq unit L
    change (logged.addInterpreter unit L).modules = w.modules
    rw [he]
    rfl
  have hlog : Change M w₀ L w logged := .objects (w.sameObjects_log _)
  have hlogged := h.change hlog
  have hadd : Change M w₀ L logged added := .addInterpreter hlogged unit
  have hadded := hlogged.change hadd
  have hhome : added.Homed L (added.Mine M w₀) w.interpreters.next :=
    hadd.homes w.interpreters.next (Nat.le_refl _)
      (Nat.lt_of_lt_of_eq (Nat.lt_succ_self _) (logged.size_addInterpreter unit L).symm)
  have hmodule : Change M w₀ L added made := .newModule hhome
  have hmade := hadded.change hmodule
  have hnew : made.Mine M w₀ (.value (.module w.modules.next)) := by
    apply hadded.fresh
    · change w.modules.size < (added.modules.add _).size
      rw [Arena.size_add, hmodules]
      exact Nat.lt_succ_self _
    · change ¬ w.modules.size < added.modules.size
      rw [hmodules]
      exact Nat.lt_irrefl _
  have hregister : Change M w₀ L made (w.enroll unit L place) := .updateLoader fun p m hm => by
    rcases World.mem_cache_register hm with hm | ⟨-, he⟩
    · exact .inl hm
    · cases he
      exact .inr hnew
  refine ⟨hmade.change hregister, ?_, ?_, hnew.grow hregister.grown⟩
  · exact ((hlog.grown.trans hadd.grown).trans hmodule.grown).trans hregister.grown
  · exact (hhome.grow hmodule.grown).grow hregister.grown

end
end Treewalk
