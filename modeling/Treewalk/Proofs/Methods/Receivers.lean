import Treewalk.Proofs.Scopes.Words
import Treewalk.Proofs.Methods.Classes
import Treewalk.Proofs.Run.Constants
import Treewalk.Proofs.Reach.Frames

/-!
# Receivers and superclasses in scopes

The scope in which a method is bound holds the receiver, and the scope around the methods of a class
with a superclass holds that class, both under reserved words. No program can change what they hold:
what it declares or changes by name has an identifier as its name, and an import, which may bind a
reserved word, binds it to a module and in a scope in which code runs.
-/
namespace Treewalk

/-- An instance, if the value is one. -/
def Value.instance? : Value → Option (Ref .instance)
  | .instance i => some i
  | _ => none

/-- A class, if the value is one. -/
def Value.class? : Value → Option (Ref .class)
  | .class c => some c
  | _ => none

namespace Scopes
variable {s : Scopes Value} {r r' : Ref .scope} {x : String} {v : Value}

def receiver? (s : Scopes Value) (r : Ref .scope) : Option (Ref .instance) :=
  (s.find? r "this").bind Value.instance?

def superclass? (s : Scopes Value) (r : Ref .scope) : Option (Ref .class) :=
  (s.find? r "super").bind Value.class?

/-- What a scope holds for methods. -/
def held (s : Scopes Value) (r : Ref .scope) : Option (Ref .instance) × Option (Ref .class) :=
  (s.receiver? r, s.superclass? r)

theorem receiver?_eq_some {i : Ref .instance} :
    s.receiver? r = some i ↔ s.find? r "this" = some (.instance i) := by
  unfold receiver?
  rw [Option.bind_eq_some_iff]
  constructor
  · rintro ⟨v, hv, hi⟩
    cases v <;> cases hi
    exact hv
  · exact fun h => ⟨_, h, rfl⟩

theorem superclass?_eq_some {c : Ref .class} :
    s.superclass? r = some c ↔ s.find? r "super" = some (.class c) := by
  unfold superclass?
  rw [Option.bind_eq_some_iff]
  constructor
  · rintro ⟨v, hv, hc⟩
    cases v <;> cases hc
    exact hv
  · exact fun h => ⟨_, h, rfl⟩

theorem lt_of_receiver? {i : Ref .instance} (h : s.receiver? r = some i) : r.index < s.size :=
  lt_of_find? (receiver?_eq_some.mp h)

theorem lt_of_superclass? {c : Ref .class} (h : s.superclass? r = some c) : r.index < s.size :=
  lt_of_find? (superclass?_eq_some.mp h)

theorem held_of_get {s' : Scopes Value} (h : s'.get r = s.get r) : s'.held r = s.held r := by
  unfold held receiver? superclass? find?
  rw [h]

/-- A binding that leaves alone what scopes hold for methods. -/
def Harmless (s : Scopes Value) (r : Ref .scope) (x : String) (v : Value) : Prop :=
  TokenKind.ofWord x = .identifier ∨ s.held r = (none, none) ∧ ∃ m, v = .module m

theorem held_define (h : s.Harmless r x v) : (s.define r x v).held r' = s.held r' := by
  rcases h with hword | ⟨hfree, m, rfl⟩
  · have hthis : x ≠ "this" := fun he => by
      rw [he] at hword
      cases hword
    have hsuper : x ≠ "super" := fun he => by
      rw [he] at hword
      cases hword
    unfold held receiver? superclass?
    rw [find?_define_of_ne s v fun he => hthis he.2, find?_define_of_ne s v fun he => hsuper he.2]
  · by_cases hr : r' = r
    · subst hr
      -- The module is neither an instance nor a class.
      have hreceiver : (s.define r' x (.module m)).receiver? r' = none := by
        by_contra hne
        obtain ⟨i, hi⟩ := Option.ne_none_iff_exists'.mp hne
        rcases find?_define_cases (receiver?_eq_some.mp hi) with ⟨-, he⟩ | hold
        · cases he
        · exact nomatch (congrArg Prod.fst hfree).symm.trans (receiver?_eq_some.mpr hold)
      have hsuperclass : (s.define r' x (.module m)).superclass? r' = none := by
        by_contra hne
        obtain ⟨c, hc⟩ := Option.ne_none_iff_exists'.mp hne
        rcases find?_define_cases (superclass?_eq_some.mp hc) with ⟨-, he⟩ | hold
        · cases he
        · exact nomatch (congrArg Prod.snd hfree).symm.trans (superclass?_eq_some.mpr hold)
      rw [hfree]
      exact Prod.ext hreceiver hsuperclass
    · exact held_of_get (get_define_of_ne _ _ _ (Ne.symm hr))

theorem receiver?_next_of_ne {p : Option (Ref .scope)} (h : x ≠ "this") :
    ((s.addChild p).define s.next x v).receiver? s.next = none := by
  unfold receiver?
  rw [find?_next, if_neg h]
  rfl

theorem superclass?_next_of_ne {p : Option (Ref .scope)} (h : x ≠ "super") :
    ((s.addChild p).define s.next x v).superclass? s.next = none := by
  unfold superclass?
  rw [find?_next, if_neg h]
  rfl

theorem held_addChild (s : Scopes Value) (p : Option (Ref .scope)) :
    (s.addChild p).held s.next = (none, none) := by
  unfold held receiver? superclass? find?
  rw [get_addChild, if_pos rfl]
  rfl

theorem parent_next (s : Scopes Value) (p : Option (Ref .scope)) (x : String) (v : Value) :
    (((s.addChild p).define s.next x v).get s.next).parent = p := by
  rw [parent_of_define, get_addChild, if_pos rfl]

/-- The scope one step further outward is the parent. -/
theorem parent_of_ancestor? {hops : Nat} {r a b : Ref .scope}
    (ha : s.ancestor? hops r = some a) (hb : s.ancestor? (hops + 1) r = some b) :
    (s.get a).parent = some b := by
  induction hops generalizing r with
  | zero =>
      cases ha
      unfold ancestor? at hb
      split at hb
      · next p hp =>
          cases hb
          exact hp
      · cases hb
  | succ hops ih =>
      unfold ancestor? at ha hb
      cases hp : (s.get r).parent with
      | none =>
          rw [hp] at ha
          cases ha
      | some p =>
          rw [hp] at ha hb
          exact ih ha hb

end Scopes

namespace World
variable {w w' w'' : World}

/-! ### What stays -/

/-- Functions, classes and what scopes hold for methods stay, as do the classes of instances. -/
structure Retains (w w' : World) : Prop where
  scopes : w.scopes.size ≤ w'.scopes.size
  functions : w.functions.size ≤ w'.functions.size
  classes : w.classes.size ≤ w'.classes.size
  instances : w.instances.size ≤ w'.instances.size
  held : ∀ r : Ref .scope, r.index < w.scopes.size → w'.scopes.held r = w.scopes.held r
  parent : ∀ r : Ref .scope, r.index < w.scopes.size →
    (w'.scopes.get r).parent = (w.scopes.get r).parent
  function : ∀ r : Ref .function, r.index < w.functions.size →
    w'.functions.get r = w.functions.get r
  «class» : ∀ c : Ref .class, c.index < w.classes.size → w'.classes.get c = w.classes.get c
  classRef : ∀ i : Ref .instance, i.index < w.instances.size →
    (w'.instances.get i).classRef = (w.instances.get i).classRef

namespace Retains

theorem refl (w : World) : w.Retains w :=
  ⟨Nat.le_refl _, Nat.le_refl _, Nat.le_refl _, Nat.le_refl _, fun _ _ => rfl, fun _ _ => rfl,
    fun _ _ => rfl, fun _ _ => rfl, fun _ _ => rfl⟩

theorem trans (h : w.Retains w') (h' : w'.Retains w'') : w.Retains w'' where
  scopes := Nat.le_trans h.scopes h'.scopes
  functions := Nat.le_trans h.functions h'.functions
  classes := Nat.le_trans h.classes h'.classes
  instances := Nat.le_trans h.instances h'.instances
  held r hr := (h'.held r (Nat.lt_of_lt_of_le hr h.scopes)).trans (h.held r hr)
  parent r hr := (h'.parent r (Nat.lt_of_lt_of_le hr h.scopes)).trans (h.parent r hr)
  function r hr := (h'.function r (Nat.lt_of_lt_of_le hr h.functions)).trans (h.function r hr)
  «class» c hc := (h'.class c (Nat.lt_of_lt_of_le hc h.classes)).trans (h.class c hc)
  classRef i hi := (h'.classRef i (Nat.lt_of_lt_of_le hi h.instances)).trans (h.classRef i hi)

theorem receiver? (h : w.Retains w') {r : Ref .scope} (hr : r.index < w.scopes.size) :
    w'.scopes.receiver? r = w.scopes.receiver? r := congrArg Prod.fst (h.held r hr)

theorem superclass? (h : w.Retains w') {r : Ref .scope} (hr : r.index < w.scopes.size) :
    w'.scopes.superclass? r = w.scopes.superclass? r := congrArg Prod.snd (h.held r hr)

end Retains

/-! ### What holds throughout -/

/-- An instance or a class was made. -/
def Made (w : World) : Value → Prop
  | .instance i => i.index < w.instances.size
  | .class c => c.index < w.classes.size
  | _ => True

/-- Code may run in a scope: it holds nothing for methods. -/
structure Open (w : World) (r : Ref .scope) : Prop where
  lt : r.index < w.scopes.size
  held : w.scopes.held r = (none, none)

/-- A method of a class, whose scope holds the superclass. -/
structure Method (w : World) (superclass : Option (Ref .class)) (name : String) (f : Closure) :
    Prop where
  key : f.declaration.displayName = name
  isInitializer : f.isInitializer = (name == "init")
  lt : f.scope.index < w.scopes.size
  held : w.scopes.held f.scope = (none, superclass)
  named : (Node.function f.declaration).Named

/-- A function that can be called. Its scope holds a receiver if it is a method. -/
structure Callable (w : World) (f : Closure) : Prop where
  lt : f.scope.index < w.scopes.size
  named : (Node.function f.declaration).Named
  kind : f.isInitializer = false ∧ w.scopes.held f.scope = (none, none) ∨
    f.isInitializer = (f.declaration.displayName == "init") ∧
      ∃ i, w.scopes.held f.scope = (some i, none)

/-- A receiver is held in the scope of a method of its class, or of one from which this inherits. -/
def Receives (w : World) (r : Ref .scope) (i : Ref .instance) : Prop :=
  i.index < w.instances.size ∧ w.scopes.superclass? r = none ∧
    ∃ k name f, w.Inherits (w.instances.get i).classRef k ∧
      (w.classes.get k).methods.find? name = some f ∧ (w.scopes.get r).parent = some f.scope

/-- Methods are where the scopes that hold something for them are. -/
structure Orderly (w : World) : Prop where
  aged : w.Aged
  methods : ∀ k name f, (w.classes.get k).methods.find? name = some f →
    w.Method (w.classes.get k).superclass name f
  functions : ∀ r : Ref .function, r.index < w.functions.size → w.Callable (w.functions.get r)
  receivers : ∀ r i, w.scopes.receiver? r = some i → w.Receives r i
  values : ∀ r x v, w.scopes.find? r x = some v → w.Made v
  fields : ∀ i x v, (w.instances.get i).fields.find? x = some v → w.Made v
  globals : ∀ home : Ref .interpreter, home.index < w.interpreters.size → w.Open (w.globals home)

section
variable {v : Value} {r : Ref .scope} {f : Closure}

theorem Made.retain (h : w.Made v) (hw : w.Retains w') : w'.Made v := by
  cases v with
  | «instance» i => exact Nat.lt_of_lt_of_le h hw.instances
  | «class» c => exact Nat.lt_of_lt_of_le h hw.classes
  | _ => trivial

theorem Open.retain (h : w.Open r) (hw : w.Retains w') : w'.Open r :=
  ⟨Nat.lt_of_lt_of_le h.lt hw.scopes, (hw.held r h.lt).trans h.held⟩

theorem Method.retain {superclass : Option (Ref .class)} {name : String}
    (h : w.Method superclass name f) (hw : w.Retains w') : w'.Method superclass name f :=
  { h with
    lt := Nat.lt_of_lt_of_le h.lt hw.scopes
    held := (hw.held _ h.lt).trans h.held }

theorem Callable.retain (h : w.Callable f) (hw : w.Retains w') : w'.Callable f :=
  { h with
    lt := Nat.lt_of_lt_of_le h.lt hw.scopes
    kind := by
      rw [hw.held _ h.lt]
      exact h.kind }

theorem Inherits.retain {c k : Ref .class} (h : w.Inherits c k) (hw : w.Retains w') :
    w'.Inherits c k := h.mono hw.class

theorem Receives.retain {i : Ref .instance} (h : w.Receives r i) (hw : w.Retains w') :
    w'.Receives r i := by
  obtain ⟨hi, hnone, k, name, f, hk, hf, hp⟩ := h
  refine ⟨Nat.lt_of_lt_of_le hi hw.instances, ?_, k, name, f, ?_, ?_, ?_⟩
  · rw [hw.superclass? (Scopes.lt_of_parent hp)]
    exact hnone
  · rw [hw.classRef i hi]
    exact hk.retain hw
  · rw [hw.class k (lt_of_method hf)]
    exact hf
  · rw [hw.parent r (Scopes.lt_of_parent hp)]
    exact hp

end

/-! ### Steps -/

/-- The same objects, and the same globals of the interpreters. -/
structure SameHeap (w w' : World) : Prop where
  scopes : w'.scopes = w.scopes
  functions : w'.functions = w.functions
  classes : w'.classes = w.classes
  instances : w'.instances = w.instances
  size : w'.interpreters.size = w.interpreters.size
  globals : ∀ home, w'.globals home = w.globals home

theorem SameObjects.heap (h : w.SameObjects w') : w.SameHeap w' :=
  ⟨h.scopes, h.functions, h.classes, h.instances, h.size, h.globals⟩

/-- All that evaluation does to objects, step by step. -/
inductive Step (w : World) : World → Prop
  | same {w' : World} : w.SameHeap w' → Step w w'
  | define {r : Ref .scope} {x : String} {v : Value} : w.scopes.Harmless r x v → w.Made v →
      Step w { w with scopes := w.scopes.define r x v }
  | newScope (p : Ref .scope) : Step w { w with scopes := w.scopes.addChild (some p) }
  /-- A method is bound. -/
  | bind {k : Ref .class} {name : String} {f : Closure} {i : Ref .instance} :
      i.index < w.instances.size → w.Inherits (w.instances.get i).classRef k →
      (w.classes.get k).methods.find? name = some f →
      Step w { w with
        scopes := (w.scopes.addChild (some f.scope)).define w.scopes.next "this" (.instance i) }
  /-- The methods of a class get a scope for its superclass. -/
  | inherit (p : Ref .scope) {c : Ref .class} : c.index < w.classes.size →
      Step w { w with
        scopes := (w.scopes.addChild (some p)).define w.scopes.next "super" (.class c) }
  | newFunction {f : Closure} : w.Callable f →
      Step w { w with functions := w.functions.add f }
  | newClass {c : ClassObject} : (∀ p, c.superclass = some p → p.index < w.classes.size) →
      (∀ name f, c.methods.find? name = some f → w.Method c.superclass name f) →
      Step w { w with classes := w.classes.add c }
  | newInstance (c : Ref .class) :
      Step w { w with instances := w.instances.add { classRef := c } }
  | setField (i : Ref .instance) (x : String) {v : Value} : w.Made v →
      Step w { w with instances := w.instances.set i { w.instances.get i with
        fields := (w.instances.get i).fields.insert x v } }
  /-- An interpreter gets globals that hold nothing but the clock. -/
  | newGlobals {i : Interpreter} : i.globals = w.scopes.next →
      Step w { w with
        scopes := (w.scopes.addChild none).define w.scopes.next clockName
          (.clock w.interpreters.next)
        interpreters := w.interpreters.add i }

/-- Making one more scope, with a name bound in it, retains everything. -/
theorem retains_next (w : World) (p : Option (Ref .scope)) (x : String) (v : Value) :
    w.Retains { w with scopes := (w.scopes.addChild p).define w.scopes.next x v } :=
  { Retains.refl w with
    scopes := Nat.le_trans (Nat.le_succ _) (Nat.le_of_eq (Scopes.size_next ..).symm)
    held := fun _ hr => Scopes.held_of_get (Scopes.get_next_of_lt _ p x v hr)
    parent := fun _ hr => by rw [Scopes.get_next_of_lt _ p x v hr] }

theorem Step.retains (h : w.Step w') : w.Retains w' := by
  have hrefl := Retains.refl w
  cases h with
  | same h =>
      constructor
      case scopes => rw [h.scopes]
      case functions => rw [h.functions]
      case classes => rw [h.classes]
      case instances => rw [h.instances]
      case held => exact fun _ _ => by rw [h.scopes]
      case parent => exact fun _ _ => by rw [h.scopes]
      case function => exact fun _ _ => by rw [h.functions]
      case «class» => exact fun _ _ => by rw [h.classes]
      case classRef => exact fun _ _ => by rw [h.instances]
  | define hharmless _ =>
      exact { hrefl with
        scopes := Nat.le_of_eq (Arena.size_set ..).symm
        held := fun _ _ => Scopes.held_define hharmless
        parent := fun r _ => Scopes.parent_of_define _ _ r _ _ }
  | newScope p =>
      exact { hrefl with
        scopes := Nat.le_trans (Nat.le_succ _) (Nat.le_of_eq (Scopes.size_addChild ..).symm)
        held := fun _ hr => Scopes.held_of_get (Scopes.get_addChild_of_lt _ _ hr)
        parent := fun _ hr => by rw [Scopes.get_addChild_of_lt _ _ hr] }
  | bind _ _ _ => exact w.retains_next _ _ _
  | inherit p _ => exact w.retains_next _ _ _
  | newFunction _ =>
      exact { hrefl with
        functions := Nat.le_trans (Nat.le_succ _) (Nat.le_of_eq (Arena.size_add ..).symm)
        function := fun _ hr => Arena.get_add_of_lt _ _ hr }
  | newClass _ _ =>
      exact { hrefl with
        classes := Nat.le_trans (Nat.le_succ _) (Nat.le_of_eq (Arena.size_add ..).symm)
        «class» := fun _ hc => Arena.get_add_of_lt _ _ hc }
  | newInstance c =>
      exact { hrefl with
        instances := Nat.le_trans (Nat.le_succ _) (Nat.le_of_eq (Arena.size_add ..).symm)
        classRef := fun _ hi => congrArg InstanceObject.classRef (Arena.get_add_of_lt _ _ hi) }
  | setField i x _ =>
      refine { hrefl with
        instances := Nat.le_of_eq (Arena.size_set ..).symm, classRef := fun j hj => ?_ }
      by_cases he : i = j
      · subst he
        change ((w.instances.set i _).get i).classRef = _
        rw [Arena.get_set_self _ _ hj]
      · exact congrArg InstanceObject.classRef (Arena.get_set_of_ne _ _ he)
  | newGlobals _ =>
      have h := w.retains_next none clockName (.clock w.interpreters.next)
      exact { h with }

/-- The world stays orderly if what is new in it is so. -/
theorem Orderly.grow (h : w.Orderly) (hw : w.Retains w')
    (hclasses : ∀ k : Ref .class, w'.classes.get k = w.classes.get k ∨
      (∀ p, (w'.classes.get k).superclass = some p → p.index < k.index) ∧
        ∀ name f, (w'.classes.get k).methods.find? name = some f →
          w'.Method (w'.classes.get k).superclass name f)
    (hfunctions : ∀ r : Ref .function, r.index < w'.functions.size →
      r.index < w.functions.size ∨ w'.Callable (w'.functions.get r))
    (hvalues : ∀ r x v, w'.scopes.find? r x = some v → w.scopes.find? r x = some v ∨
      w'.Made v ∧ ∀ i, x = "this" → v = .instance i → w'.Receives r i)
    (hfields : ∀ i x v, (w'.instances.get i).fields.find? x = some v →
      (w.instances.get i).fields.find? x = some v ∨ w'.Made v)
    (hglobals : ∀ home : Ref .interpreter, home.index < w'.interpreters.size →
      home.index < w.interpreters.size ∧ w'.globals home = w.globals home ∨
        w'.Open (w'.globals home)) : w'.Orderly := by
  constructor
  case aged =>
    intro c p hp
    rcases hclasses c with hold | ⟨hnew, -⟩
    · rw [hold] at hp
      exact h.aged c p hp
    · exact hnew p hp
  case methods =>
    intro k name f hf
    rcases hclasses k with hold | ⟨-, hnew⟩
    · rw [hold] at hf ⊢
      exact (h.methods k name f hf).retain hw
    · exact hnew name f hf
  case functions =>
    intro r hr
    rcases hfunctions r hr with hold | hnew
    · rw [hw.function r hold]
      exact (h.functions r hold).retain hw
    · exact hnew
  case receivers =>
    intro r i hi
    rcases hvalues r _ _ (Scopes.receiver?_eq_some.mp hi) with hold | ⟨-, hnew⟩
    · exact (h.receivers r i (Scopes.receiver?_eq_some.mpr hold)).retain hw
    · exact hnew i rfl rfl
  case values =>
    intro r x v hv
    rcases hvalues r x v hv with hold | ⟨hnew, -⟩
    · exact (h.values r x v hold).retain hw
    · exact hnew
  case fields =>
    intro i x v hv
    rcases hfields i x v hv with hold | hnew
    · exact (h.fields i x v hold).retain hw
    · exact hnew
  case globals =>
    intro home hi
    rcases hglobals home hi with ⟨hold, he⟩ | hnew
    · rw [he]
      exact (h.globals home hold).retain hw
    · exact hnew

/-- Every step leaves an orderly world behind. -/
theorem Orderly.step (h : w.Orderly) (hs : w.Step w') : w'.Orderly := by
  have hw := hs.retains
  cases hs with
  | same hsame =>
      refine h.grow hw (fun k => .inl (by rw [hsame.classes])) (fun r hr => .inl ?_)
        (fun r x v hv => .inl ?_) (fun i x v hv => .inl ?_)
        fun home hi => .inl ⟨?_, hsame.globals home⟩
      · exact hsame.functions ▸ hr
      · exact hsame.scopes ▸ hv
      · exact hsame.instances ▸ hv
      · exact hsame.size ▸ hi
  | @define r x v hharmless hv =>
      refine h.grow hw (fun _ => .inl rfl) (fun _ => .inl) (fun r' y u hu => ?_) (fun _ _ _ => .inl)
        fun _ hi => .inl ⟨hi, rfl⟩
      by_cases hold : w.scopes.find? r' y = some u
      · exact .inl hold
      · obtain ⟨rfl, rfl⟩ := (Scopes.find?_define_cases hu).resolve_right hold
        refine .inr ⟨hv.retain hw, fun i hy he => ?_⟩
        -- What a scope holds as a receiver it held before.
        subst hy he
        have hheld : _ = w.scopes.receiver? r' := congrArg Prod.fst (Scopes.held_define hharmless)
        have hi := hheld.symm.trans (Scopes.receiver?_eq_some.mpr hu)
        exact (hold (Scopes.receiver?_eq_some.mp hi)).elim
  | newScope p =>
      refine h.grow hw (fun _ => .inl rfl) (fun _ => .inl) (fun r x v hv => .inl ?_)
        (fun _ _ _ => .inl) fun _ hi => .inl ⟨hi, rfl⟩
      unfold Scopes.find? at hv ⊢
      rw [Scopes.get_addChild] at hv
      split at hv
      · cases hv
      · exact hv
  | @bind k name f i hi hk hf =>
      refine h.grow hw (fun _ => .inl rfl) (fun _ => .inl) (fun r x v hv => ?_) (fun _ _ _ => .inl)
        fun _ hi => .inl ⟨hi, rfl⟩
      rcases Scopes.find?_next_cases hv with hold | ⟨rfl, -, rfl⟩
      · exact .inl hold
      · refine .inr ⟨hi, fun j _ he => ?_⟩
        cases he
        refine ⟨hi, ?_, k, name, f, hk, hf, Scopes.parent_next ..⟩
        exact Scopes.superclass?_next_of_ne nofun
  | inherit p hc =>
      refine h.grow hw (fun _ => .inl rfl) (fun _ => .inl) (fun r x v hv => ?_) (fun _ _ _ => .inl)
        fun _ hi => .inl ⟨hi, rfl⟩
      rcases Scopes.find?_next_cases hv with hold | ⟨-, -, rfl⟩
      · exact .inl hold
      · exact .inr ⟨hc, fun _ _ he => nomatch he⟩
  | newFunction hf =>
      refine h.grow hw (fun _ => .inl rfl) (fun r hr => ?_) (fun _ _ _ => .inl) (fun _ _ _ => .inl)
        fun _ hi => .inl ⟨hi, rfl⟩
      rcases Arena.get_add_cases _ _ hr with ⟨hlt, -⟩ | ⟨-, hget⟩
      · exact .inl hlt
      · refine .inr ?_
        simp only [hget]
        exact hf.retain hw
  | @newClass c hparent hmethods =>
      refine h.grow hw (fun k => ?_) (fun _ => .inl) (fun _ _ _ => .inl) (fun _ _ _ => .inl)
        fun _ hi => .inl ⟨hi, rfl⟩
      simp only [Arena.get_add]
      split
      · next hk =>
          subst hk
          exact .inr ⟨hparent, fun name f hf => (hmethods name f hf).retain hw⟩
      · exact .inl rfl
  | newInstance c =>
      refine h.grow hw (fun _ => .inl rfl) (fun _ => .inl) (fun _ _ _ => .inl) (fun i x v hv => ?_)
        fun _ hi => .inl ⟨hi, rfl⟩
      simp only [Arena.get_add] at hv
      split at hv
      · cases hv
      · exact .inl hv
  | @setField i x v hv =>
      refine h.grow hw (fun _ => .inl rfl) (fun _ => .inl) (fun _ _ _ => .inl) (fun j y u hu => ?_)
        fun _ hi => .inl ⟨hi, rfl⟩
      rcases Nat.lt_or_ge i.index w.instances.size with hlt | hge
      · by_cases he : i = j
        · subst he
          simp only [Arena.get_set_self _ _ hlt, Bindings.find?_insert] at hu
          split at hu
          · cases hu
            exact .inr (hv.retain hw)
          · exact .inl hu
        · simp only [Arena.get_set_of_ne _ _ he] at hu
          exact .inl hu
      · simp only [Arena.set_of_le _ _ hge] at hu
        exact .inl hu
  | @newGlobals i hi =>
      refine h.grow hw (fun _ => .inl rfl) (fun _ => .inl) (fun r x v hv => ?_) (fun _ _ _ => .inl)
        fun home hh => ?_
      · rcases Scopes.find?_next_cases hv with hold | ⟨-, -, rfl⟩
        · exact .inl hold
        · exact .inr ⟨trivial, fun _ _ he => nomatch he⟩
      · rcases Arena.get_add_cases _ _ hh with ⟨hlt, hget⟩ | ⟨-, hget⟩
        · exact .inl ⟨hlt, congrArg Interpreter.globals hget⟩
        · refine .inr ?_
          have hglobals : ((w.interpreters.add i).get home).globals = w.scopes.next :=
            (congrArg Interpreter.globals hget).trans hi
          unfold World.globals
          simp only [hglobals]
          refine ⟨Nat.lt_of_lt_of_eq (Nat.lt_succ_self _) (Scopes.size_next ..).symm, ?_⟩
          unfold Scopes.held Scopes.receiver? Scopes.superclass?
          simp only [Scopes.find?_next]
          rfl

/-- All that evaluation does to objects, in any number of steps. -/
def Steps : World → World → Prop := Relation.ReflTransGen Step

namespace Steps

theorem refl (w : World) : w.Steps w := Relation.ReflTransGen.refl

theorem single (h : w.Step w') : w.Steps w' := Relation.ReflTransGen.single h

theorem trans (h : w.Steps w') (h' : w'.Steps w'') : w.Steps w'' := Relation.ReflTransGen.trans h h'

theorem retains (h : w.Steps w') : w.Retains w' := by
  induction h with
  | refl => exact .refl w
  | tail _ hs ih => exact ih.trans hs.retains

end Steps

/-- Where a scope holds a receiver, the scope around it holds the superclass of the class whose
method was bound there. -/
theorem Orderly.super_of_receiver {w : World} (h : w.Orderly) {r p : Ref .scope}
    {i : Ref .instance} {c : Ref .class} (hi : w.scopes.receiver? r = some i)
    (hp : (w.scopes.get r).parent = some p) (hc : w.scopes.superclass? p = some c) :
    ∃ k name f, w.Inherits (w.instances.get i).classRef k ∧
      (w.classes.get k).methods.find? name = some f ∧ f.scope = p ∧
      (w.classes.get k).superclass = some c := by
  obtain ⟨-, -, k, name, f, hk, hf, hscope⟩ := h.receivers r i hi
  obtain rfl := Option.some.inj (hp.symm.trans hscope)
  exact ⟨k, name, f, hk, hf, rfl, (congrArg Prod.snd (h.methods k name f hf).held).symm.trans hc⟩

/-- The superclass and the receiver that `super` finds belong together. -/
theorem Orderly.super_inherits {w : World} (h : w.Orderly) {hops : Nat} {r a b : Ref .scope}
    {i : Ref .instance} {c : Ref .class} (ha : w.scopes.ancestor? (hops - 1) r = some a)
    (hb : w.scopes.ancestor? hops r = some b) (hi : w.scopes.receiver? a = some i)
    (hc : w.scopes.superclass? b = some c) : w.Inherits (w.instances.get i).classRef c := by
  cases hops with
  | zero =>
      -- No scope holds both.
      obtain rfl := Option.some.inj (ha.symm.trans hb)
      rw [(h.receivers a i hi).2.1] at hc
      cases hc
  | succ hops =>
      obtain ⟨k, -, -, hk, -, -, hsuper⟩ :=
        h.super_of_receiver hi (Scopes.parent_of_ancestor? ha hb) hc
      exact hk.tail hsuper

end World
end Treewalk
