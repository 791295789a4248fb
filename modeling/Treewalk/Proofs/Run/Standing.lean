import Treewalk.Proofs.Scopes.Housing
import Treewalk.Proofs.Run.Events

/-!
# Scopes around a running node

Where a node runs, the scopes outward are those that were opened for the constructs around the node,
and each binds at least what is declared before the node. Runs only add to this: scopes stay where
they are and keep their names.
-/
namespace Treewalk

namespace Arena
variable {kind : RefKind} {α : Type}

theorem set_of_le (a : Arena kind α) (x : α) {r : Ref kind} (h : a.size ≤ r.index) :
    a.set r x = a := by
  unfold set
  rw [Array.setIfInBounds_eq_of_size_le h]

variable [Inhabited α]

theorem get_of_le (a : Arena kind α) {r : Ref kind} (h : a.size ≤ r.index) :
    a.get r = default := by
  simp only [size] at h
  simp [get, h]

theorem get_add (a : Arena kind α) (x : α) (r : Ref kind) :
    (a.add x).get r = if r = a.next then x else a.get r := by
  by_cases h : r = a.next
  · rw [if_pos h, h, get_add_next]
  · rw [if_neg h]
    have hne : r.index ≠ a.size := fun he => h (by cases r; cases he; rfl)
    rcases Nat.lt_or_ge r.index a.size with hlt | hge
    · exact get_add_of_lt a x hlt
    · rw [get_of_le a hge, get_of_le _ (by rw [size_add]; omega)]

/-- What is in the arena after an addition was there before, or is what was added. -/
theorem get_add_cases (a : Arena kind α) (x : α) {r : Ref kind} (h : r.index < (a.add x).size) :
    (r.index < a.size ∧ (a.add x).get r = a.get r) ∨ (r = a.next ∧ (a.add x).get r = x) := by
  rw [size_add] at h
  rcases Nat.lt_succ_iff_lt_or_eq.mp h with hlt | he
  · exact .inl ⟨hlt, get_add_of_lt a x hlt⟩
  · have hnext : r = a.next := by
      cases r
      cases he
      rfl
    refine .inr ⟨hnext, ?_⟩
    rw [hnext, get_add_next]

end Arena

namespace Scopes
variable {α : Type}

theorem parent_of_define (s : Scopes α) (r r' : Ref .scope) (name : String) (a : α) :
    ((s.define r name a).get r').parent = (s.get r').parent := by
  rcases Nat.lt_or_ge r.index s.size with h | h
  · exact parent_define s r' name a h
  · rw [define, Arena.set_of_le _ _ h]

theorem contains_define (s : Scopes α) {r : Ref .scope} (r' : Ref .scope) (name x : String) (a : α)
    (h : r.index < s.size) : (s.define r name a).contains r' x = true ↔
      s.contains r' x = true ∨ r' = r ∧ x = name := by
  unfold contains
  by_cases hr : r = r'
  · subst hr
    unfold define
    rw [Arena.get_set_self _ _ h, Bindings.contains_insert, Bool.or_eq_true, decide_eq_true_eq]
    constructor
    · rintro (hx | hx)
      · exact .inr ⟨rfl, hx.symm⟩
      · exact .inl hx
    · rintro (hx | ⟨-, hx⟩)
      · exact .inr hx
      · exact .inl hx.symm
  · rw [get_define_of_ne _ _ _ hr]
    exact ⟨.inl, fun hx => hx.resolve_right fun hx => hr hx.1.symm⟩

theorem contains_of_define (s : Scopes α) {r r' : Ref .scope} {name x : String} (a : α)
    (h : s.contains r' x = true) : (s.define r name a).contains r' x = true := by
  rcases Nat.lt_or_ge r.index s.size with hr | hr
  · exact (contains_define s r' name x a hr).mpr (.inl h)
  · rw [define, Arena.set_of_le _ _ hr]
    exact h

theorem get_addChild (s : Scopes α) (parent : Option (Ref .scope)) (r : Ref .scope) :
    (s.addChild parent).get r = if r = s.next then { parent := parent } else s.get r :=
  Arena.get_add s _ r

theorem size_addChild (s : Scopes α) (parent : Option (Ref .scope)) :
    (s.addChild parent).size = s.size + 1 :=
  Arena.size_add ..

theorem get_addChild_of_lt (s : Scopes α) (parent : Option (Ref .scope)) {r : Ref .scope}
    (h : r.index < s.size) : (s.addChild parent).get r = s.get r := by
  rw [get_addChild, if_neg]
  rintro rfl
  exact Nat.lt_irrefl _ h

theorem contains_addChild (s : Scopes α) (parent : Option (Ref .scope)) (r : Ref .scope)
    (x : String) : (s.addChild parent).contains r x = s.contains r x := by
  unfold contains
  rw [get_addChild]
  by_cases h : r = s.next
  · have hle : s.size ≤ r.index := by rw [h]; exact Nat.le_refl _
    rw [if_pos h, Arena.get_of_le s hle]
    rfl
  · rw [if_neg h]

/-- A scope that binds a name is an existing one. -/
theorem lt_of_find? {s : Scopes α} {r : Ref .scope} {x : String} {a : α} (h : s.find? r x = some a) :
    r.index < s.size := by
  rcases Nat.lt_or_ge r.index s.size with hr | hr
  · exact hr
  · unfold find? at h
    rw [Arena.get_of_le s hr] at h
    cases h

/-! ### A new scope that binds one name -/

theorem size_next (s : Scopes α) (p : Option (Ref .scope)) (x : String) (a : α) :
    ((s.addChild p).define s.next x a).size = s.size + 1 := by
  unfold define
  rw [Arena.size_set, size_addChild]

/-- The other scopes are as they were. -/
theorem get_next_of_lt (s : Scopes α) (p : Option (Ref .scope)) (x : String) (a : α)
    {r : Ref .scope} (h : r.index < s.size) :
    ((s.addChild p).define s.next x a).get r = s.get r := by
  have hne : s.next ≠ r := by
    rintro rfl
    exact Nat.lt_irrefl _ h
  rw [get_define_of_ne _ _ _ hne, get_addChild_of_lt s p h]

theorem find?_next (s : Scopes α) (p : Option (Ref .scope)) (x y : String) (a : α) :
    ((s.addChild p).define s.next x a).find? s.next y = if x = y then some a else none := by
  have hlt : s.next.index < (s.addChild p).size := by
    rw [size_addChild]
    exact Nat.lt_succ_self _
  unfold find? define
  rw [Arena.get_set_self _ _ hlt, Bindings.find?_insert, get_addChild, if_pos rfl]
  rfl

/-- What is found is found before, or in the new scope. -/
theorem find?_next_cases {s : Scopes α} {p : Option (Ref .scope)} {x y : String} {a b : α}
    {r : Ref .scope} (h : ((s.addChild p).define s.next x a).find? r y = some b) :
    s.find? r y = some b ∨ r = s.next ∧ x = y ∧ a = b := by
  have hlt := lt_of_find? h
  rw [size_next] at hlt
  rcases Nat.lt_succ_iff_lt_or_eq.mp hlt with hlt | he
  · unfold find? at h
    rw [get_next_of_lt _ _ _ _ hlt] at h
    exact .inl h
  · obtain rfl : r = s.next := by
      cases r
      cases he
      rfl
    rw [find?_next] at h
    split at h
    · next hx => exact .inr ⟨rfl, hx, Option.some.inj h⟩
    · cases h

theorem parent_addRoot (s : Scopes α) (name : String) (a : α) (r : Ref .scope) :
    (((s.addChild none).define s.next name a).get r).parent = (s.get r).parent := by
  rw [parent_of_define, get_addChild]
  by_cases h : r = s.next
  · have hle : s.size ≤ r.index := by rw [h]; exact Nat.le_refl _
    rw [if_pos h, Arena.get_of_le s hle]
    rfl
  · rw [if_neg h]

/-- A scope that binds a name is an existing one. -/
theorem lt_of_contains {s : Scopes α} {r : Ref .scope} {x : String} (h : s.contains r x = true) :
    r.index < s.size := by
  rcases Nat.lt_or_ge r.index s.size with hr | hr
  · exact hr
  · unfold contains at h
    rw [Arena.get_of_le s hr] at h
    cases h

theorem lt_of_parent {s : Scopes α} {r p : Ref .scope} (h : (s.get r).parent = some p) :
    r.index < s.size := by
  rcases Nat.lt_or_ge r.index s.size with hr | hr
  · exact hr
  · rw [Arena.get_of_le s hr] at h
    cases h

end Scopes

/-- The scope of a construct is made inside the one in which the construct was evaluated, or inside
the scope for the receiver or the superclass of a method. -/
inductive Entered (notes : List Event) : Construct → Ref .scope → Prop
  | block {site : Site} {body : List Stmt} {w : World} :
      .node .reached site (.stmt (.block body)) w ∈ notes → Entered notes (.block body) site.scope
  | function {site : Site} {f : FunctionDecl} {w : World} :
      .node .reached site (.stmt (.function f)) w ∈ notes → Entered notes (.function f) site.scope
  | lambda {site : Site} {f : FunctionDecl} {w : World} :
      .node .reached site (.expr (.lambda f)) w ∈ notes → Entered notes (.function f) site.scope
  | bound {r : Ref .scope} {f : FunctionDecl} :
      .opened r (.this f) ∈ notes → Entered notes (.function f) r
  | method {site : Site} {name : Token} {methods : List FunctionDecl} {f : FunctionDecl}
      {w : World} : .node .reached site (.stmt (.class name none methods)) w ∈ notes →
      f ∈ methods → Entered notes (.this f) site.scope
  | inherited {r : Ref .scope} {methods : List FunctionDecl} {f : FunctionDecl} :
      .opened r (.super methods) ∈ notes → f ∈ methods → Entered notes (.this f) r
  | super {site : Site} {name : Token} {use : NameUse} {methods : List FunctionDecl} {w : World} :
      .node .reached site (.stmt (.class name (some use) methods)) w ∈ notes →
      Entered notes (.super methods) site.scope

theorem Entered.mono {notes notes' : List Event} {c : Construct} {r : Ref .scope}
    (h : Entered notes c r) (hn : notes ⊆ notes') : Entered notes' c r := by
  cases h with
  | block hr => exact .block (hn hr)
  | function hr => exact .function (hn hr)
  | lambda hr => exact .lambda (hn hr)
  | bound hr => exact .bound (hn hr)
  | method hr hf => exact .method (hn hr) hf
  | inherited hr hf => exact .inherited (hn hr) hf
  | super hr => exact .super (hn hr)

/-- Scopes stand around a scope as frames stand around a node. -/
inductive Stands (s : Watched World Event) (home : Ref .interpreter) :
    Ref .scope → List Frame → Prop
  | globals : home.index < s.state.interpreters.size → Stands s home (s.state.globals home) []
  | inside {r p : Ref .scope} {f : Frame} {outer : List Frame} :
      .opened r f.construct ∈ s.notes → (∀ x ∈ f.names, s.state.scopes.contains r x = true) →
      (s.state.scopes.get r).parent = some p → Entered s.notes f.construct p →
      Stands s home p outer → Stands s home r (f :: outer)

/-- A statement of a unit around a position began. -/
def Begun (s : Watched World Event) (home : Ref .interpreter) (q : Position) : Prop :=
  ∃ text st, .began home text st ∈ s.notes ∧ Within ⟨[], .stmt st⟩ q

/-- The names that a statement binds in the scope where it stands. -/
def Stmt.binds : Stmt → List String
  | .if _ thenBranch none => thenBranch.binds
  | .if _ thenBranch (some s) => thenBranch.binds ++ s.binds
  | .while _ body _ => body.binds
  | st => st.declares.map Prod.fst

theorem Stmt.mem_binds {st : Stmt} {name : String} {m : Mutability} (h : (name, m) ∈ st.declares) :
    name ∈ st.binds := by
  cases st with
  | «if» condition thenBranch elseBranch => cases h
  | «while» condition body increment => cases h
  | _ => exact List.mem_map_of_mem (f := Prod.fst) h

/-- The statement of a unit that began last in an interpreter. -/
def latest (home : Ref .interpreter) : List Event → Option Stmt
  | [] => none
  | .began home' _ st :: notes => if home' = home then some st else latest home notes
  | .opened .. :: notes | .node .. :: notes => latest home notes

theorem latest_began (home : Ref .interpreter) (text : UnitText) (st : Stmt) (notes : List Event) :
    latest home (.began home text st :: notes) = some st := by
  rw [latest, if_pos rfl]

/-- Other notes say nothing about it. -/
theorem latest_cons {home : Ref .interpreter} {e : Event} (notes : List Event)
    (h : ∀ text st, e ≠ .began home text st) : latest home (e :: notes) = latest home notes := by
  cases e with
  | began home' text st =>
      rw [latest, if_neg]
      rintro rfl
      exact h text st rfl
  | opened | node => rfl

/-- A position is where code runs. -/
structure At (s : Watched World Event) (site : Site) (q : Position) : Prop where
  stands : Stands s site.home site.scope q.frames
  begun : Begun s site.home q

/-- A function that can be called is where its scope says. -/
def Closure.Stays (s : Watched World Event) (f : Closure) : Prop :=
  ∃ frames, Stands s f.home f.scope frames ∧
    Begun s f.home ⟨frames, .function f.declaration⟩ ∧
    Entered s.notes (.function f.declaration) f.scope

/-- A method is to be called in a scope for its receiver. -/
def Closure.Waits (s : Watched World Event) (f : Closure) : Prop :=
  ∃ frames, Stands s f.home f.scope frames ∧
    Begun s f.home ⟨.receiver f.declaration :: frames, .function f.declaration⟩ ∧
    Entered s.notes (.this f.declaration) f.scope

/-- A run goes on from one state to another. The interpreters below `n` are not run. -/
structure Grows (n : Nat) (s s' : Watched World Event) : Prop where
  notes : s.notes ⊆ s'.notes
  calm : ∀ home text st, .began home text st ∈ s'.notes → home.index < n →
    .began home text st ∈ s.notes
  scopes : s.state.scopes.size ≤ s'.state.scopes.size
  parent : ∀ r p, (s.state.scopes.get r).parent = some p → (s'.state.scopes.get r).parent = some p
  holds : ∀ r x, s.state.scopes.contains r x = true → s'.state.scopes.contains r x = true
  interpreters : s.state.interpreters.size ≤ s'.state.interpreters.size
  globals : ∀ home : Ref .interpreter, home.index < s.state.interpreters.size →
    s'.state.globals home = s.state.globals home
  constants : ∀ home : Ref .interpreter, home.index < n →
    (s'.state.interpreters.get home).constants = (s.state.interpreters.get home).constants
  files : ∀ home : Ref .interpreter, home.index < n →
    (s'.state.interpreters.get home).file = (s.state.interpreters.get home).file
  latest : ∀ home : Ref .interpreter, home.index < n →
    latest home s'.notes = latest home s.notes
  /-- New globals are bound by the statement that is running. -/
  bound : ∀ home : Ref .interpreter, home.index < n → home.index < s.state.interpreters.size →
    ∀ x, s'.state.scopes.contains (s.state.globals home) x = true →
      s.state.scopes.contains (s.state.globals home) x = true ∨
        ∃ st, Treewalk.latest home s.notes = some st ∧ x ∈ st.binds

namespace Grows
variable {n m : Nat} {s t u : Watched World Event}

theorem refl (n : Nat) (s : Watched World Event) : Grows n s s :=
  ⟨fun _ h => h, fun _ _ _ h _ => h, Nat.le_refl _, fun _ _ h => h, fun _ _ h => h, Nat.le_refl _,
    fun _ _ => rfl, fun _ _ => rfl, fun _ _ => rfl, fun _ _ => rfl, fun _ _ _ _ h => .inl h⟩

theorem trans (h : Grows n s t) (h' : Grows n t u) : Grows n s u where
  notes := fun _ hv => h'.notes (h.notes hv)
  calm := fun home text st hb hn => h.calm home text st (h'.calm home text st hb hn) hn
  scopes := Nat.le_trans h.scopes h'.scopes
  parent := fun r p hp => h'.parent r p (h.parent r p hp)
  holds := fun r x hx => h'.holds r x (h.holds r x hx)
  interpreters := Nat.le_trans h.interpreters h'.interpreters
  globals := fun home hi =>
    (h'.globals home (Nat.lt_of_lt_of_le hi h.interpreters)).trans (h.globals home hi)
  constants := fun home hi => (h'.constants home hi).trans (h.constants home hi)
  files := fun home hi => (h'.files home hi).trans (h.files home hi)
  latest := fun home hi => (h'.latest home hi).trans (h.latest home hi)
  bound := fun home hi hlt x hx => by
    have hlater := h'.bound home hi (Nat.lt_of_lt_of_le hlt h.interpreters) x
    rw [h.globals home hlt, h.latest home hi] at hlater
    rcases hlater hx with hx | hx
    · exact h.bound home hi hlt x hx
    · exact .inr hx

theorem mono (h : Grows n s t) (hm : m ≤ n) : Grows m s t :=
  { h with
    calm := fun home text st hb hi => h.calm home text st hb (Nat.lt_of_lt_of_le hi hm)
    constants := fun home hi => h.constants home (Nat.lt_of_lt_of_le hi hm)
    files := fun home hi => h.files home (Nat.lt_of_lt_of_le hi hm)
    latest := fun home hi => h.latest home (Nat.lt_of_lt_of_le hi hm)
    bound := fun home hi => h.bound home (Nat.lt_of_lt_of_le hi hm) }

end Grows

/-- A statement outside all scopes is part of the one that began last. -/
def Latest (n : Nat) (s : Watched World Event) (home : Ref .interpreter) (frames : List Frame)
    (st : Stmt) : Prop :=
  frames = [] → home.index < n → ∃ st', latest home s.notes = some st' ∧ st.binds ⊆ st'.binds

section Growing
variable {n : Nat} {s s' : Watched World Event} {home : Ref .interpreter} {r : Ref .scope}
  {frames : List Frame} {q : Position} {site : Site}

theorem Stands.grow (h : Stands s home r frames) (hg : Grows n s s') : Stands s' home r frames := by
  induction h with
  | globals hi =>
      rw [← hg.globals home hi]
      exact .globals (Nat.lt_of_lt_of_le hi hg.interpreters)
  | inside hopened hnames hparent hentered _ ih =>
      exact .inside (hg.notes hopened) (fun x hx => hg.holds _ x (hnames x hx))
        (hg.parent _ _ hparent) (hentered.mono hg.notes) ih

theorem Begun.grow (h : Begun s home q) (hg : Grows n s s') : Begun s' home q := by
  obtain ⟨text, st, hb, hq⟩ := h
  exact ⟨text, st, hg.notes hb, hq⟩

theorem Begun.inner {p : Position} (h : Begun s home p) (hi : Inner p q) : Begun s home q := by
  obtain ⟨text, st, hb, hp⟩ := h
  exact ⟨text, st, hb, hp.tail hi⟩

theorem At.grow (h : At s site q) (hg : Grows n s s') : At s' site q :=
  ⟨h.stands.grow hg, h.begun.grow hg⟩

/-- A part of a node runs where the node does. -/
theorem At.part {node m : Node} (h : At s site ⟨frames, node⟩) (hm : m ∈ node.parts) :
    At s site ⟨frames, m⟩ :=
  ⟨h.stands, h.begun.inner (.part hm)⟩

theorem Latest.grow {st : Stmt} (h : Latest n s home frames st) (hg : Grows n s s') :
    Latest n s' home frames st := by
  intro hframes hi
  rw [hg.latest home hi]
  exact h hframes hi

theorem Latest.part {st st' : Stmt} (h : Latest n s home frames st) (hst : st'.binds ⊆ st.binds) :
    Latest n s home frames st' := by
  intro hframes hi
  obtain ⟨st₀, hlatest, hbinds⟩ := h hframes hi
  exact ⟨st₀, hlatest, fun x hx => hbinds (hst hx)⟩

theorem Latest.inside {st : Stmt} {f : Frame} : Latest n s home (f :: frames) st :=
  fun hframes => nomatch hframes

theorem Closure.Stays.grow {f : Closure} (h : f.Stays s) (hg : Grows n s s') : f.Stays s' := by
  obtain ⟨frames, hstands, hbegun, hentered⟩ := h
  exact ⟨frames, hstands.grow hg, hbegun.grow hg, hentered.mono hg.notes⟩

theorem Closure.Waits.grow {f : Closure} (h : f.Waits s) (hg : Grows n s s') : f.Waits s' := by
  obtain ⟨frames, hstands, hbegun, hentered⟩ := h
  exact ⟨frames, hstands.grow hg, hbegun.grow hg, hentered.mono hg.notes⟩

theorem Stands.lt (h : Stands s home r frames) : home.index < s.state.interpreters.size := by
  induction h with
  | globals hi => exact hi
  | inside _ _ _ _ _ ih => exact ih

/-- The scope of the innermost frame awaits a name. -/
theorem Stands.beginning (name : String) (h : Stands s home r frames) :
    Stands s home r (beginning name frames) := by
  cases h with
  | globals hi => exact .globals hi
  | @inside _ p f outer hopened hnames hparent hentered hrest =>
      have hnames' : ∀ x ∈ Frame.names { f with pending := some name },
          s.state.scopes.contains r x = true := hnames
      exact .inside (f := { f with pending := some name }) hopened hnames' hparent hentered hrest

/-- The innermost scope binds more names. -/
theorem Stands.declaring {ds : List (String × Mutability)} (h : Stands s home r frames)
    (hds : frames ≠ [] → ∀ x ∈ ds.map Prod.fst, s.state.scopes.contains r x = true) :
    Stands s home r (declaring ds frames) := by
  cases h with
  | globals hi => exact .globals hi
  | @inside _ p f outer hopened hnames hparent hentered hrest =>
      have hnames' : ∀ x ∈ Frame.names { f with bound := f.bound ++ ds },
          s.state.scopes.contains r x = true := by
        intro x hx
        unfold Frame.names at hx
        rw [List.map_append] at hx
        rcases List.mem_append.mp hx with hx | hx
        · exact hnames x hx
        · exact hds (List.cons_ne_nil _ _) x hx
      exact .inside (f := { f with bound := f.bound ++ ds }) hopened hnames' hparent hentered hrest

/-- So many hops outward stands the scope of the construct of the frame there. -/
theorem Stands.ancestor {hops : Nat} {f : Frame} (h : Stands s home r frames)
    (hf : frames[hops]? = some f) : ∃ r', s.state.scopes.ancestor? hops r = some r' ∧
      .opened r' f.construct ∈ s.notes ∧ ∀ x ∈ f.names, s.state.scopes.contains r' x = true := by
  induction h generalizing hops with
  | globals => cases hf
  | @inside r p f₀ outer hopened hnames hparent _ _ ih =>
      cases hops with
      | zero =>
          cases hf
          exact ⟨r, rfl, hopened, hnames⟩
      | succ hops =>
          obtain ⟨r', hr', hrest⟩ := ih hf
          refine ⟨r', ?_, hrest⟩
          unfold Scopes.ancestor?
          rw [hparent]
          exact hr'

/-- The scope there was made where its construct was entered. -/
theorem Stands.entered {hops : Nat} {f : Frame} (h : Stands s home r frames)
    (hf : frames[hops]? = some f) : ∃ r' p, s.state.scopes.ancestor? hops r = some r' ∧
      (s.state.scopes.get r').parent = some p ∧ Entered s.notes f.construct p := by
  induction h generalizing hops with
  | globals => cases hf
  | @inside r p f₀ outer _ _ hparent hentered _ ih =>
      cases hops with
      | zero =>
          cases hf
          exact ⟨r, p, rfl, hparent, hentered⟩
      | succ hops =>
          obtain ⟨r', p', hr', hrest⟩ := ih hf
          refine ⟨r', p', ?_, hrest⟩
          unfold Scopes.ancestor?
          rw [hparent]
          exact hr'

end Growing
end Treewalk
