import Treewalk.Proofs.Run.Standing

/-!
# What holds throughout a run

Scopes have older parents and hold only what their constructs declare; globals have no parent and
belong to one interpreter for good; functions and methods are where their scopes say; and every note
was true when it was taken. With `current`, units are run on the constants they were prepared with, and the
constants that began in an interpreter are among its constants.
-/
namespace Treewalk

/-- A world before another one. -/
structure World.Past (w w' : World) : Prop where
  interpreters : w.interpreters.size ≤ w'.interpreters.size
  globals : ∀ home : Ref .interpreter, home.index < w.interpreters.size →
    w'.globals home = w.globals home

theorem World.Past.grow {n : Nat} {w : World} {s s' : Watched World Event} (h : w.Past s.state)
    (hg : Grows n s s') : w.Past s'.state where
  interpreters := Nat.le_trans h.interpreters hg.interpreters
  globals := fun home hi =>
    (hg.globals home (Nat.lt_of_lt_of_le hi h.interpreters)).trans (h.globals home hi)

/-- What holds of a world and the notes so far. -/
structure Sane (current : Prop) (s : Watched World Event) : Prop where
  outward : ∀ r p, (s.state.scopes.get r).parent = some p → p.index < r.index
  opened : ∀ r c, .opened r c ∈ s.notes → r.index < s.state.scopes.size ∧
    (s.state.scopes.get r).parent ≠ none ∧
    ∀ x, s.state.scopes.contains r x = true → x ∈ c.declares.map Prod.fst
  single : ∀ r c c', .opened r c ∈ s.notes → .opened r c' ∈ s.notes → c = c'
  globals : ∀ home : Ref .interpreter, home.index < s.state.interpreters.size →
    (s.state.globals home).index < s.state.scopes.size ∧
      (s.state.scopes.get (s.state.globals home)).parent = none
  apart : ∀ home home' : Ref .interpreter, home.index < s.state.interpreters.size →
    home'.index < s.state.interpreters.size → s.state.globals home = s.state.globals home' →
    home = home'
  modules : ∀ m, (s.state.modules.get m).home.index = 0 ∨
    (s.state.modules.get m).home.index < s.state.interpreters.size
  past : ∀ m site node w, .node m site node w ∈ s.notes → w.Past s.state
  started : ∀ home text st, .began home text st ∈ s.notes →
    home.index < s.state.interpreters.size
  functions : ∀ r : Ref .function, r.index < s.state.functions.size →
    (s.state.functions.get r).Stays s
  methods : ∀ r name f, (s.state.classes.get r).methods.find? name = some f → f.Waits s
  constants : current → ∀ home text x initial,
    .began home text (.var .constant x initial) ∈ s.notes →
      x.lexeme ∈ (s.state.interpreters.get home).constants

/-- What a note says, given the notes before it. -/
def Event.Holds (current : Prop) (earlier : List Event) : Event → Prop
  | .opened _ _ => True
  | .began home text st => text.unit.ok = true ∧ ∃ before after,
      text.unit.statements = before ++ st :: after ∧
        (current → ∀ text' x initial, .began home text' (.var .constant x initial) ∈ earlier →
          x.lexeme ∈ text.constants ∨ (x.lexeme, .constant) ∈ declarations before)
  | .node _ site n w => Sane current ⟨w, earlier⟩ ∧ ∃ frames, At ⟨w, earlier⟩ site ⟨frames, n⟩

/-- Every note was true when it was taken. -/
inductive Told (current : Prop) : List Event → Prop
  | nil : Told current []
  | cons {e : Event} {earlier : List Event} :
      e.Holds current earlier → Told current earlier → Told current (e :: earlier)

/-- A state of a run in which there are at least `n` interpreters. -/
structure Good (current : Prop) (n : Nat) (s : Watched World Event) : Prop where
  sane : Sane current s
  told : Told current s.notes
  enough : n ≤ s.state.interpreters.size

/-- A good state is reached from another state. -/
structure Goes (current : Prop) (n : Nat) (s s' : Watched World Event) : Prop where
  good : Good current n s'
  grows : Grows n s s'

theorem Told.split {current : Prop} {later : List Event} {e : Event} {earlier : List Event}
    (h : Told current (later ++ e :: earlier)) : e.Holds current earlier := by
  induction later with
  | nil =>
      cases h with
      | cons he _ => exact he
  | cons _ later ih =>
      cases h with
      | cons _ hrest => exact ih hrest

theorem Told.earlier {current : Prop} {later : List Event} {e : Event} {earlier : List Event}
    (h : Told current (later ++ e :: earlier)) : Told current earlier := by
  induction later with
  | nil =>
      cases h with
      | cons _ hrest => exact hrest
  | cons _ later ih =>
      cases h with
      | cons _ hrest => exact ih hrest

theorem Told.holds {current : Prop} {notes : List Event} {e : Event} (h : Told current notes)
    (he : e ∈ notes) : ∃ earlier, earlier ⊆ notes ∧ e.Holds current earlier := by
  obtain ⟨later, earlier, rfl⟩ := List.append_of_mem he
  exact ⟨earlier, fun _ hx => List.mem_append_right _ (List.mem_cons_of_mem _ hx), h.split⟩

namespace Told
variable {current : Prop} {notes : List Event} {home : Ref .interpreter} {text : UnitText} {st : Stmt}

/-- What began is a statement of an accepted unit. -/
theorem accepted (h : Told current notes) (hb : .began home text st ∈ notes) :
    text.unit.ok = true ∧ st ∈ text.unit.statements := by
  obtain ⟨_, _, hok, before, after, he, -⟩ := h.holds hb
  exact ⟨hok, he ▸ List.mem_append_right _ (List.mem_cons_self ..)⟩

/-- It is resolved, whatever is inside. -/
theorem placed (h : Told current notes) (hb : .began home text st ∈ notes) :
    ∃ K, Everywhere (Placed K text.visits [] []) ⟨[], .stmt st⟩ := by
  obtain ⟨hok, hst⟩ := h.accepted hb
  obtain ⟨before, after, he⟩ := List.append_of_mem hst
  exact ⟨_, text.placed hok he⟩

theorem everywhere (h : Told current notes) (hb : .began home text st ∈ notes) :
    ∃ K, Everywhere (Position.Fits K) ⟨[], .stmt st⟩ :=
  (h.placed hb).imp fun _ hplaced => hplaced.mono fun _ hp => hp.fits

theorem fits {s : Watched World Event} {q : Position} (h : Told current s.notes)
    (hq : Begun s home q) : (∃ K, q.Fits K) ∧ q.Housed := by
  obtain ⟨text, st, hb, hwithin⟩ := hq
  obtain ⟨K, hfits⟩ := h.everywhere hb
  exact ⟨⟨K, hfits q hwithin⟩, hwithin.housed hfits⟩

end Told

section
variable {current : Prop} {n : Nat} {s s' : Watched World Event} {home : Ref .interpreter}
  {site : Site} {q : Position}

/-- The depth of a scope is the number of the frames. -/
theorem Sane.depth (h : Sane current s) {r : Ref .scope} {frames : List Frame}
    (hr : Stands s home r frames) : s.state.scopes.depth r = frames.length := by
  have hfuel : ∀ fuel, r.index ≤ fuel → s.state.scopes.depthWithin fuel r = frames.length := by
    induction hr with
    | globals hi =>
        intro fuel _
        cases fuel with
        | zero => rfl
        | succ fuel =>
            unfold Scopes.depthWithin
            rw [(h.globals home hi).2]
            rfl
    | @inside r p f outer _ _ hparent _ _ ih =>
        intro fuel hfuel
        have hlt := h.outward r p hparent
        cases fuel with
        | zero => omega
        | succ fuel =>
            unfold Scopes.depthWithin
            rw [hparent]
            simp only [List.length_cons]
            rw [ih fuel (by omega)]
  exact hfuel r.index (Nat.le_refl _)

/-- A use of a name that the frames know leads to an existing scope. -/
theorem Good.found (h : Good current n s) {frames : List Frame} {node : Node} {use : NameUse}
    (hat : At s site ⟨frames, node⟩) (hu : node.use? = some use) {hops : Nat}
    (hh : use.hops = some hops) : ∃ r f, s.state.scopes.ancestor? hops site.scope = some r ∧
      frames[hops]? = some f ∧ f.Knows use.name.lexeme ∧ .opened r f.construct ∈ s.notes ∧
      use.name.lexeme ∈ f.construct.declares.map Prod.fst ∧
      ∀ x ∈ f.names, s.state.scopes.contains r x = true := by
  obtain ⟨⟨K, hfits⟩, hhoused⟩ := h.told.fits hat.begun
  obtain ⟨f, hf, hknows⟩ := hfits.found hu hops hh
  obtain ⟨r, hr, hopened, hnames⟩ := hat.stands.ancestor hf
  have hframe : f.Housed := hhoused.frames f (List.mem_of_getElem? hf)
  exact ⟨r, f, hr, hf, hknows, hopened, hframe.knows hknows, hnames⟩

/-- Taking a true note, which opens no scope. -/
theorem Good.note (h : Good current n s) {e : Event} (he : e.Holds current s.notes)
    (hopened : ∀ r c, e ≠ .opened r c)
    (hnode : ∀ m site node w, e = .node m site node w → w = s.state)
    (hbegan : ∀ home text st, e = .began home text st →
      n ≤ home.index ∧ home.index < s.state.interpreters.size ∧
        (current → ∀ x initial, st = .var .constant x initial →
          x.lexeme ∈ (s.state.interpreters.get home).constants)) :
    Goes current n s ⟨s.state, e :: s.notes⟩ := by
  have hg : Grows n s ⟨s.state, e :: s.notes⟩ :=
    { Grows.refl n s with
      notes := fun _ hv => List.mem_cons_of_mem _ hv
      calm := fun home text st hb hi => by
        rcases List.mem_cons.mp hb with hb | hb
        · exact (Nat.not_le_of_lt hi (hbegan home text st hb.symm).1).elim
        · exact hb
      latest := fun home hi => latest_cons _ fun text st hb =>
        Nat.not_le_of_lt hi (hbegan home text st hb).1 }
  have hold : ∀ r c, .opened r c ∈ e :: s.notes → .opened r c ∈ s.notes := by
    intro r c hc
    rcases List.mem_cons.mp hc with hc | hc
    · exact (hopened r c hc.symm).elim
    · exact hc
  have hs := h.sane
  refine ⟨⟨?_, .cons he h.told, h.enough⟩, hg⟩
  constructor
  case outward => exact hs.outward
  case opened => exact fun r c hc => hs.opened r c (hold r c hc)
  case single => exact fun r c c' hc hc' => hs.single r c c' (hold r c hc) (hold r c' hc')
  case globals => exact hs.globals
  case apart => exact hs.apart
  case modules => exact hs.modules
  case past =>
    intro m site node w hw
    rcases List.mem_cons.mp hw with hw | hw
    · rw [hnode m site node w hw.symm]
      exact ⟨Nat.le_refl _, fun _ _ => rfl⟩
    · exact hs.past m site node w hw
  case started =>
    intro home text st hb
    rcases List.mem_cons.mp hb with hb | hb
    · exact (hbegan home text st hb.symm).2.1
    · exact hs.started home text st hb
  case functions => exact fun r hr => (hs.functions r hr).grow hg
  case methods => exact fun r name f hf => (hs.methods r name f hf).grow hg
  case constants =>
    intro hcur home text x initial hb
    rcases List.mem_cons.mp hb with hb | hb
    · exact (hbegan home text _ hb.symm).2.2 hcur x initial rfl
    · exact hs.constants hcur home text x initial hb

/-- A node is noted where it runs. -/
theorem Good.noting (h : Good current n s) {m : Moment} {node : Node} {frames : List Frame}
    (hat : At s site ⟨frames, node⟩) :
    Goes current n s ⟨s.state, .node m site node s.state :: s.notes⟩ :=
  h.note ⟨h.sane, frames, hat⟩ (fun _ _ he => nomatch he)
    (fun _ _ _ _ he => by cases he; rfl) fun _ _ _ he => nomatch he

/-- Worlds that differ only in what names and functions do not depend on, and in the constants and the
files of interpreters from the `n`th on; with `current`, these constants are at least as many. -/
structure World.Keeps (current : Prop) (n : Nat) (w w' : World) : Prop where
  scopes : w'.scopes = w.scopes
  functions : w'.functions = w.functions
  classes : w'.classes = w.classes
  interpreters : w'.interpreters.size = w.interpreters.size
  globals : ∀ home, w'.globals home = w.globals home
  modules : ∀ m, (w'.modules.get m).home = (w.modules.get m).home ∨
    (w'.modules.get m).home.index < w'.interpreters.size
  constants : ∀ home : Ref .interpreter, home.index < n →
    (w'.interpreters.get home).constants = (w.interpreters.get home).constants
  files : ∀ home : Ref .interpreter, home.index < n →
    (w'.interpreters.get home).file = (w.interpreters.get home).file
  more : current → ∀ home : Ref .interpreter,
    (w.interpreters.get home).constants ⊆ (w'.interpreters.get home).constants

theorem Good.keeps (h : Good current n s) {w : World} (hw : s.state.Keeps current n w) :
    Goes current n s ⟨w, s.notes⟩ := by
  have hg : Grows n s ⟨w, s.notes⟩ := by
    constructor
    case notes => exact fun _ hv => hv
    case calm => exact fun _ _ _ hb _ => hb
    case scopes => exact Nat.le_of_eq (by rw [hw.scopes])
    case parent => exact fun _ _ hp => by rw [hw.scopes]; exact hp
    case holds => exact fun _ _ hx => by rw [hw.scopes]; exact hx
    case interpreters => exact Nat.le_of_eq hw.interpreters.symm
    case globals => exact fun home _ => hw.globals home
    case constants => exact hw.constants
    case files => exact hw.files
    case latest => exact fun _ _ => rfl
    case bound => exact fun _ _ _ _ hx => .inl (by rw [hw.scopes] at hx; exact hx)
  have hs := h.sane
  refine ⟨⟨?_, h.told, ?_⟩, hg⟩
  · constructor
    case outward => rw [hw.scopes]; exact hs.outward
    case opened => rw [hw.scopes]; exact hs.opened
    case single => exact hs.single
    case globals =>
      intro home hi
      rw [hw.interpreters] at hi
      rw [hw.globals, hw.scopes]
      exact hs.globals home hi
    case apart =>
      intro home home' hi hi' he
      rw [hw.interpreters] at hi hi'
      rw [hw.globals, hw.globals] at he
      exact hs.apart home home' hi hi' he
    case modules =>
      intro m
      rcases hw.modules m with hm | hm
      · rw [hm, hw.interpreters]
        exact hs.modules m
      · exact .inr hm
    case past => exact fun m site node w hw => (hs.past m site node w hw).grow hg
    case started =>
      intro home text st hb
      rw [hw.interpreters]
      exact hs.started home text st hb
    case functions =>
      intro r hr
      rw [hw.functions] at hr ⊢
      exact (hs.functions r hr).grow hg
    case methods =>
      intro r name f hf
      rw [hw.classes] at hf
      exact (hs.methods r name f hf).grow hg
    case constants =>
      exact fun hcur home text x initial hb =>
        hw.more hcur home (hs.constants hcur home text x initial hb)
  · rw [hw.interpreters]
    exact h.enough

/-- Worlds that differ only in what names and functions do not depend on. -/
def World.Alike (w w' : World) : Prop := ∀ n, w.Keeps True n w'

theorem World.Alike.intro {w w' : World} (hscopes : w'.scopes = w.scopes)
    (hfunctions : w'.functions = w.functions) (hclasses : w'.classes = w.classes)
    (hinterpreters : w'.interpreters.size = w.interpreters.size)
    (hglobals : ∀ home, w'.globals home = w.globals home)
    (hmodules : ∀ m, (w'.modules.get m).home = (w.modules.get m).home)
    (hconstants : ∀ home,
      (w'.interpreters.get home).constants = (w.interpreters.get home).constants)
    (hfiles : ∀ home, (w'.interpreters.get home).file = (w.interpreters.get home).file) :
    w.Alike w' := fun _ =>
  ⟨hscopes, hfunctions, hclasses, hinterpreters, hglobals, fun m => .inl (hmodules m),
    fun home _ => hconstants home, fun home _ => hfiles home, fun _ home => by rw [hconstants home]; exact List.Subset.refl _⟩

theorem World.Alike.refl (w : World) : w.Alike w :=
  .intro rfl rfl rfl rfl (fun _ => rfl) (fun _ => rfl) (fun _ => rfl) fun _ => rfl

theorem World.Alike.trans {w w' w'' : World} (h : w.Alike w') (h' : w'.Alike w'') : w.Alike w'' :=
  fun n => ⟨(h' n).scopes.trans (h n).scopes, (h' n).functions.trans (h n).functions,
    (h' n).classes.trans (h n).classes, (h' n).interpreters.trans (h n).interpreters,
    fun home => ((h' n).globals home).trans ((h n).globals home), fun m => by
      rcases (h' n).modules m with hm | hm
      · rw [hm, (h' n).interpreters]
        exact (h n).modules m
      · exact .inr hm,
    fun home hi => ((h' n).constants home hi).trans ((h n).constants home hi),
    fun home hi => ((h' n).files home hi).trans ((h n).files home hi),
    fun _ home _ hx => (h' n).more trivial home ((h n).more trivial home hx)⟩

theorem World.Alike.same_constants {w w' : World} (h : w.Alike w') (home : Ref .interpreter) :
    (w'.interpreters.get home).constants = (w.interpreters.get home).constants :=
  (h (home.index + 1)).constants home (Nat.lt_succ_self _)

theorem Good.alike (h : Good current n s) {w : World} (hw : s.state.Alike w) :
    Goes current n s ⟨w, s.notes⟩ :=
  h.keeps { hw n with more := fun _ => (hw n).more trivial }

/-- A name is bound that the construct of the scope declares, or the statement that is running, or
that the scope had. -/
theorem Good.define (h : Good current n s) {r : Ref .scope} {name : String} (v : Value)
    (hname : ∀ c, .opened r c ∈ s.notes → name ∈ c.declares.map Prod.fst ∨
      s.state.scopes.contains r name = true)
    (hbound : ∀ home : Ref .interpreter, home.index < n → home.index < s.state.interpreters.size →
      s.state.globals home = r → s.state.scopes.contains r name = true ∨
        ∃ st, latest home s.notes = some st ∧ name ∈ st.binds) :
    Goes current n s ⟨{ s.state with scopes := s.state.scopes.define r name v }, s.notes⟩ := by
  have hsize : (s.state.scopes.define r name v).size = s.state.scopes.size := Arena.size_set ..
  have hg : Grows n s ⟨{ s.state with scopes := s.state.scopes.define r name v }, s.notes⟩ :=
    { Grows.refl n s with
      scopes := Nat.le_of_eq hsize.symm
      parent := fun r' p hp => by
        change ((s.state.scopes.define r name v).get r').parent = some p
        rw [Scopes.parent_of_define]
        exact hp
      holds := fun r' x hx => Scopes.contains_of_define _ v hx
      bound := fun home hi hlt x hx => by
        rcases Nat.lt_or_ge r.index s.state.scopes.size with hr | hr
        · rcases (Scopes.contains_define _ _ name x v hr).mp hx with hx | ⟨hglobals, rfl⟩
          · exact .inl hx
          · rw [hglobals]
            exact hbound home hi hlt hglobals
        · change (s.state.scopes.define r name v).contains _ x = true at hx
          rw [Scopes.define, Arena.set_of_le _ _ hr] at hx
          exact .inl hx }
  have hs := h.sane
  refine ⟨⟨?_, h.told, h.enough⟩, hg⟩
  constructor
  case outward =>
    intro r' p hp
    change ((s.state.scopes.define r name v).get r').parent = some p at hp
    rw [Scopes.parent_of_define] at hp
    exact hs.outward r' p hp
  case opened =>
    intro r' c hc
    obtain ⟨hlt, hparent, hnames⟩ := hs.opened r' c hc
    refine ⟨?_, ?_, fun x hx => ?_⟩
    · exact Nat.lt_of_lt_of_eq hlt hsize.symm
    · change ((s.state.scopes.define r name v).get r').parent ≠ none
      rw [Scopes.parent_of_define]
      exact hparent
    · rcases Nat.lt_or_ge r.index s.state.scopes.size with hr | hr
      · rcases (Scopes.contains_define _ r' name x v hr).mp hx with hx | ⟨rfl, rfl⟩
        · exact hnames x hx
        · rcases hname c hc with hname | hname
          · exact hname
          · exact hnames _ hname
      · change (s.state.scopes.define r name v).contains r' x = true at hx
        rw [Scopes.define, Arena.set_of_le _ _ hr] at hx
        exact hnames x hx
  case single => exact hs.single
  case globals =>
    intro home hi
    obtain ⟨hlt, hparent⟩ := hs.globals home hi
    refine ⟨Nat.lt_of_lt_of_eq hlt hsize.symm, ?_⟩
    change ((s.state.scopes.define r name v).get (s.state.globals home)).parent = none
    rw [Scopes.parent_of_define]
    exact hparent
  case apart => exact hs.apart
  case modules => exact hs.modules
  case past => exact fun m site node w hw => (hs.past m site node w hw).grow hg
  case started => exact hs.started
  case functions => exact fun r hr => (hs.functions r hr).grow hg
  case methods => exact fun r name f hf => (hs.methods r name f hf).grow hg
  case constants => exact hs.constants

theorem grows_open (p : Ref .scope) (c : Construct) :
    Grows n s ⟨{ s.state with scopes := s.state.scopes.addChild (some p) },
        .opened s.state.scopes.next c :: s.notes⟩ :=
  { Grows.refl n s with
    notes := fun _ hv => List.mem_cons_of_mem _ hv
    calm := fun home text st hb _ => by
      rcases List.mem_cons.mp hb with hb | hb
      · cases hb
      · exact hb
    scopes := Nat.le_trans (Nat.le_succ _) (Nat.le_of_eq (Scopes.size_addChild _ _).symm)
    parent := fun r q hq => by
      change ((s.state.scopes.addChild (some p)).get r).parent = some q
      rw [Scopes.get_addChild_of_lt _ _ (Scopes.lt_of_parent hq)]
      exact hq
    holds := fun r x hx => by
      change (s.state.scopes.addChild (some p)).contains r x = true
      rw [Scopes.contains_addChild]
      exact hx
    latest := fun home _ => latest_cons _ fun _ _ he => nomatch he
    bound := fun home _ _ x hx => by
      change (s.state.scopes.addChild (some p)).contains _ x = true at hx
      rw [Scopes.contains_addChild] at hx
      exact .inl hx }

/-- An opened scope is a new one, or was there and holds what it held. -/
theorem Sane.opened_open (h : Sane current s) (p : Ref .scope) {c c' : Construct} {r : Ref .scope}
    (hc : .opened r c' ∈ .opened s.state.scopes.next c :: s.notes) :
    r.index < (s.state.scopes.addChild (some p)).size ∧
      ((s.state.scopes.addChild (some p)).get r).parent ≠ none ∧
      ∀ x, (s.state.scopes.addChild (some p)).contains r x = true →
        x ∈ c'.declares.map Prod.fst := by
  rw [Scopes.size_addChild]
  rcases List.mem_cons.mp hc with hc | hc
  · cases hc
    refine ⟨Nat.lt_succ_self _, ?_, fun x hx => ?_⟩
    · rw [Scopes.get_addChild, if_pos rfl]
      exact Option.some_ne_none p
    · rw [Scopes.contains_addChild] at hx
      exact (Nat.lt_irrefl _ (Scopes.lt_of_contains hx)).elim
  · obtain ⟨hlt, hparent, hnames⟩ := h.opened r c' hc
    refine ⟨Nat.lt_succ_of_lt hlt, ?_, fun x hx => ?_⟩
    · rw [Scopes.get_addChild_of_lt _ _ hlt]
      exact hparent
    · rw [Scopes.contains_addChild] at hx
      exact hnames x hx

/-- The new scope was opened for no other construct. -/
theorem Sane.single_open (h : Sane current s) {c c₁ c₂ : Construct} {r : Ref .scope}
    (hc₁ : .opened r c₁ ∈ .opened s.state.scopes.next c :: s.notes)
    (hc₂ : .opened r c₂ ∈ .opened s.state.scopes.next c :: s.notes) : c₁ = c₂ := by
  have hfresh : ∀ c', .opened s.state.scopes.next c' ∉ s.notes := fun c' hc' =>
    Nat.lt_irrefl _ (h.opened _ _ hc').1
  rcases List.mem_cons.mp hc₁ with hc₁ | hc₁
  · cases hc₁
    rcases List.mem_cons.mp hc₂ with hc₂ | hc₂
    · cases hc₂
      rfl
    · exact (hfresh c₂ hc₂).elim
  · rcases List.mem_cons.mp hc₂ with hc₂ | hc₂
    · cases hc₂
      exact (hfresh c₁ hc₁).elim
    · exact h.single r c₁ c₂ hc₁ hc₂

/-- A scope is opened for a construct. -/
theorem Good.open (h : Good current n s) {p : Ref .scope} (c : Construct)
    (hp : p.index < s.state.scopes.size) :
    Goes current n s ⟨{ s.state with scopes := s.state.scopes.addChild (some p) },
        .opened s.state.scopes.next c :: s.notes⟩ := by
  have hg := grows_open (n := n) (s := s) p c
  have hs := h.sane
  refine ⟨⟨?_, .cons trivial h.told, h.enough⟩, hg⟩
  constructor
  case outward =>
    intro r q hq
    change ((s.state.scopes.addChild (some p)).get r).parent = some q at hq
    rw [Scopes.get_addChild] at hq
    by_cases hr : r = s.state.scopes.next
    · rw [if_pos hr] at hq
      cases hq
      rw [hr]
      exact hp
    · rw [if_neg hr] at hq
      exact hs.outward r q hq
  case opened => exact fun r c' hc => hs.opened_open p hc
  case single => exact fun r c₁ c₂ hc₁ hc₂ => hs.single_open hc₁ hc₂
  case globals =>
    intro home hi
    obtain ⟨hlt, hparent⟩ := hs.globals home hi
    refine ⟨Nat.lt_of_lt_of_le hlt hg.scopes, ?_⟩
    change ((s.state.scopes.addChild (some p)).get (s.state.globals home)).parent = none
    rw [Scopes.get_addChild_of_lt _ _ hlt]
    exact hparent
  case apart => exact hs.apart
  case modules => exact hs.modules
  case past =>
    intro m site node w hw
    rcases List.mem_cons.mp hw with hw | hw
    · cases hw
    · exact (hs.past m site node w hw).grow hg
  case started =>
    intro home text st hb
    rcases List.mem_cons.mp hb with hb | hb
    · cases hb
    · exact hs.started home text st hb
  case functions => exact fun r hr => (hs.functions r hr).grow hg
  case methods => exact fun r name f hf => (hs.methods r name f hf).grow hg
  case constants =>
    intro hcur home text x initial hb
    rcases List.mem_cons.mp hb with hb | hb
    · cases hb
    · exact hs.constants hcur home text x initial hb

theorem Good.newFunction (h : Good current n s) {f : Closure} (hf : f.Stays s) :
    Goes current n s ⟨{ s.state with functions := s.state.functions.add f }, s.notes⟩ := by
  have hg : Grows n s ⟨{ s.state with functions := s.state.functions.add f }, s.notes⟩ :=
    { Grows.refl n s with }
  have hpast := fun m site node w hw => (h.sane.past m site node w hw).grow hg
  refine ⟨⟨{ h.sane with
    functions := fun r hr => ?_, methods := fun r name f hf => ?_, past := hpast },
    h.told, h.enough⟩, hg⟩
  · rcases Arena.get_add_cases _ _ hr with ⟨hlt, hold⟩ | ⟨-, hnew⟩
    · change ((s.state.functions.add f).get r).Stays _
      rw [hold]
      exact (h.sane.functions r hlt).grow hg
    · change ((s.state.functions.add f).get r).Stays _
      rw [hnew]
      exact hf.grow hg
  · exact (h.sane.methods r name f hf).grow hg

theorem Good.newClass (h : Good current n s) {c : ClassObject}
    (hc : ∀ name f, c.methods.find? name = some f → f.Waits s) :
    Goes current n s ⟨{ s.state with classes := s.state.classes.add c }, s.notes⟩ := by
  have hg : Grows n s ⟨{ s.state with classes := s.state.classes.add c }, s.notes⟩ :=
    { Grows.refl n s with }
  have hpast := fun m site node w hw => (h.sane.past m site node w hw).grow hg
  refine ⟨⟨{ h.sane with
    functions := fun r hr => ?_, methods := fun r name f hf => ?_, past := hpast },
    h.told, h.enough⟩, hg⟩
  · exact (h.sane.functions r hr).grow hg
  · change ((s.state.classes.add c).get r).methods.find? name = some f at hf
    rw [Arena.get_add] at hf
    by_cases hr : r = s.state.classes.next
    · rw [if_pos hr] at hf
      exact (hc name f hf).grow hg
    · rw [if_neg hr] at hf
      exact (h.sane.methods r name f hf).grow hg

theorem World.alike_log (w : World) (l : LogLine) : w.Alike (w.log l) :=
  .intro rfl rfl rfl rfl (fun _ => rfl) (fun _ => rfl) (fun _ => rfl) fun _ => rfl

theorem Good.grows_addGlobals (h : Good current n s) (i : Interpreter) (name : String) (v : Value) :
    Grows n s ⟨{ s.state with
        scopes := (s.state.scopes.addChild none).define s.state.scopes.next name v
        interpreters := s.state.interpreters.add i }, s.notes⟩ where
  notes := fun _ hv => hv
  calm := fun _ _ _ hb _ => hb
  scopes := Nat.le_trans (Nat.le_succ _) (Nat.le_of_eq (Scopes.size_next _ _ _ _).symm)
  parent := fun r p hp => (Scopes.parent_addRoot _ _ _ r).trans hp
  holds := fun r x hx => Scopes.contains_of_define _ v <| by
    rw [Scopes.contains_addChild]
    exact hx
  interpreters := Nat.le_trans (Nat.le_succ _) (Nat.le_of_eq (Arena.size_add _ _).symm)
  globals := fun home hh => congrArg Interpreter.globals (Arena.get_add_of_lt _ _ hh)
  constants := fun home hh => congrArg Interpreter.constants
    (Arena.get_add_of_lt _ _ (Nat.lt_of_lt_of_le hh h.enough))
  files := fun home hh => congrArg Interpreter.file
    (Arena.get_add_of_lt _ _ (Nat.lt_of_lt_of_le hh h.enough))
  latest := fun _ _ => rfl
  bound := fun home _ hlt x hx => by
    unfold Scopes.contains at hx
    rw [Scopes.get_next_of_lt _ _ _ _ (h.sane.globals home hlt).1] at hx
    exact .inl hx

/-- The next scope holds the globals of no interpreter. -/
theorem Sane.globals_ne_next (h : Sane current s) {home : Ref .interpreter}
    (hi : home.index < s.state.interpreters.size) :
    (s.state.interpreters.get home).globals ≠ s.state.scopes.next := by
  intro he
  have hindex := (h.globals home hi).1
  simp only [World.globals, he] at hindex
  exact Nat.lt_irrefl _ hindex

/-- An interpreter whose globals are in the next scope shares them with no other one. -/
theorem Sane.apart_add (h : Sane current s) {i : Interpreter}
    (hi : i.globals = s.state.scopes.next) {home home' : Ref .interpreter}
    (hh : home.index < (s.state.interpreters.add i).size)
    (hh' : home'.index < (s.state.interpreters.add i).size)
    (he : ((s.state.interpreters.add i).get home).globals =
      ((s.state.interpreters.add i).get home').globals) : home = home' := by
  rcases Arena.get_add_cases _ _ hh with ⟨hlt, hold⟩ | ⟨hnext, hnew⟩
  · rw [hold] at he
    rcases Arena.get_add_cases _ _ hh' with ⟨hlt', hold'⟩ | ⟨-, hnew'⟩
    · rw [hold'] at he
      exact h.apart home home' hlt hlt' he
    · rw [hnew', hi] at he
      exact (h.globals_ne_next hlt he).elim
  · rw [hnew, hi] at he
    rcases Arena.get_add_cases _ _ hh' with ⟨hlt', hold'⟩ | ⟨hnext', -⟩
    · rw [hold'] at he
      exact (h.globals_ne_next hlt' he.symm).elim
    · rw [hnext, hnext']

/-- A new interpreter with a new scope for its globals. -/
theorem Good.addGlobals (h : Good current n s) {i : Interpreter} {name : String} (v : Value)
    (hi : i.globals = s.state.scopes.next) :
    Goes current n s ⟨{ s.state with
        scopes := (s.state.scopes.addChild none).define s.state.scopes.next name v
        interpreters := s.state.interpreters.add i }, s.notes⟩ := by
  have hg := h.grows_addGlobals i name v
  have hparent := Scopes.parent_addRoot s.state.scopes name v
  have hs := h.sane
  refine ⟨⟨?_, h.told, Nat.le_trans h.enough hg.interpreters⟩, hg⟩
  constructor
  case outward => exact fun r p hp => hs.outward r p ((hparent r).symm.trans hp)
  case opened =>
    intro r c hc
    obtain ⟨hlt, hsome, hnames⟩ := hs.opened r c hc
    refine ⟨Nat.lt_of_lt_of_le hlt hg.scopes, ?_, fun x hx => ?_⟩
    · exact fun he => hsome ((hparent r).symm.trans he)
    · unfold Scopes.contains at hx
      simp only [Scopes.get_next_of_lt _ _ _ _ hlt] at hx
      exact hnames x hx
  case single => exact hs.single
  case globals =>
    intro home hh
    simp only [World.globals]
    rcases Arena.get_add_cases _ _ hh with ⟨hlt, hold⟩ | ⟨-, hnew⟩
    · obtain ⟨hindex, hnone⟩ := hs.globals home hlt
      rw [hold]
      exact ⟨Nat.lt_of_lt_of_le hindex hg.scopes, (hparent _).trans hnone⟩
    · have hempty : s.state.scopes.get s.state.scopes.next = default :=
        Arena.get_of_le _ (Nat.le_refl s.state.scopes.size)
      rw [hnew, hi, Scopes.size_next, hparent, hempty]
      exact ⟨Nat.lt_succ_self _, rfl⟩
  case apart => exact fun home home' hh hh' he => hs.apart_add hi hh hh' he
  case modules => exact fun m => (hs.modules m).imp_right fun hm =>
    Nat.lt_of_lt_of_le hm hg.interpreters
  case past => exact fun m site node w hw => (hs.past m site node w hw).grow hg
  case started =>
    exact fun home text st hb => Nat.lt_of_lt_of_le (hs.started home text st hb) hg.interpreters
  case functions => exact fun r hr => (hs.functions r hr).grow hg
  case methods => exact fun r name f hf => (hs.methods r name f hf).grow hg
  case constants =>
    intro hcur home text x initial hb
    simp only [Arena.get_add_of_lt _ _ (hs.started _ _ _ hb)]
    exact hs.constants hcur home text x initial hb

/-- A new interpreter, whose globals hold nothing but the clock. -/
theorem Good.addInterpreter (h : Good current n s) (unit : String) (loader : Ref .loader) :
    Goes current n s ⟨s.state.addInterpreter unit loader, s.notes⟩ := by
  unfold World.addInterpreter
  by_cases hfirst : s.state.interpreters.size = 0
  · simp only [hfirst, if_true]
    obtain ⟨hlogged, hg⟩ := h.alike (s.state.alike_log (.limitRaised nestingLimit))
    obtain ⟨hadded, hg'⟩ := hlogged.addGlobals (.clock s.state.interpreters.next)
      (i := { reporter := { unit := unit }, globals := s.state.scopes.next, loader := loader }) rfl
    exact ⟨hadded, hg.trans hg'⟩
  · simp only [hfirst, if_false]
    exact h.addGlobals (.clock s.state.interpreters.next) rfl

end
end Treewalk
