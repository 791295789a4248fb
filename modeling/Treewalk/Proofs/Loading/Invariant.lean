import Mathlib.Data.List.Dedup
import Mathlib.Data.List.Perm.Subperm
import Treewalk.Proofs.Loading.Loads
import Treewalk.Proofs.Run.Units

/-!
# Loads and the cache

What holds of the loads that are going on and of the cache of a loader. With `one`, all interpreters
share the first loader; then a file that was ever loaded is registered, unless its load failed.
-/
namespace Treewalk

/-- The places of all files, each once. -/
def FileTree.places (t : FileTree) : List RealPath :=
  (t.entries.map Prod.fst).dedup.filter fun p => (t.entry? p).any FileEntry.isFile

theorem FileTree.mem_places {t : FileTree} {p : RealPath} {e : FileEntry} (h : t.entry? p = some e)
    (he : e.isFile = true) : p ∈ t.places := by
  refine List.mem_filter.mpr ⟨List.mem_dedup.mpr ?_, ?_⟩
  · obtain ⟨x, hx, -⟩ := Option.map_eq_some_iff.mp h
    have hp : x.1 = p := by simpa using List.find?_some hx
    exact List.mem_map.mpr ⟨x, List.mem_of_find?_eq_some hx, hp⟩
  · rw [h]
    exact he

theorem FileTree.entry?_of_follow {t : FileTree} {names : List String} {p place : RealPath}
    {e : FileEntry} (h : t.follow p names = .entry place e) : t.entry? place = some e := by
  induction names generalizing p with
  | nil =>
      unfold follow at h
      split at h
      · cases h
        assumption
      · cases h
  | cons name names ih =>
      unfold follow at h
      split at h
      · cases h
      · split at h
        · cases h
        · exact ih h

theorem FileTree.entry?_of_find {t : FileTree} {directory place : RealPath} {names : List String}
    {e : FileEntry} (h : t.find directory names = .entry place e) : t.entry? place = some e := by
  unfold find at h
  split at h
  · cases h
  · exact entry?_of_follow h

/-- What is found for an import is a file. -/
theorem World.findModule_places {w : World} {home : Ref .interpreter} {name : String}
    {place : RealPath} {e : FileEntry} (h : w.findModule home name = .entry place e) :
    place ∈ w.files.places := by
  unfold findModule at h
  generalize w.moduleDirectories home = directories at h
  induction directories with
  | nil => cases h
  | cons d directories ih =>
      unfold firstFile at h
      split at h
      · cases h
      · rename_i place' e' hfind
        by_cases he : e'.isFile = true
        · rw [if_pos he] at h
          cases h
          exact FileTree.mem_places (FileTree.entry?_of_find hfind) he
        · rw [if_neg he] at h
          exact ih h
      · exact ih h

/-! ### Caches -/

namespace Loader
variable {c : Loader} {p q : RealPath} {m m' : Ref .module}

theorem cached?_register_of_some (h : c.cached? q = some m) : (c.register p m').cached? q = some m := by
  obtain ⟨e, he, hm⟩ := Option.map_eq_some_iff.mp h
  unfold cached? register
  rw [List.find?_append, he, Option.some_or]
  exact congrArg some hm

theorem cached?_register_self (h : c.cached? p = none) : (c.register p m).cached? p = some m := by
  unfold cached? at h ⊢
  unfold register
  rw [List.find?_append, Option.map_eq_none_iff.mp h, Option.none_or]
  simp

theorem cached?_forget_of_ne (h : q ≠ p) : (c.forget p).cached? q = c.cached? q := by
  unfold cached? forget
  rw [List.find?_filter]
  congr 1
  congr 1
  funext e
  by_cases he : e.1 = q
  · simp [he, h]
  · simp [he]

end Loader

/-! ### Notes of loads -/

/-- The load of which something is noted. -/
def LoadEvent.load? : LoadEvent → Option Load
  | .started _ l _ | .executed l _ | .ended l _ => some l
  | .run | .reached _ _ => none

/-- What is noted when a load fails: the unit was rejected, or a runtime error ended it. -/
inductive LoadEvent.Fails (l : Load) : LoadEvent → Prop
  | rejected : Fails l (.ended l .rejected)
  | failed {e : RuntimeError} : Fails l (.ended l (.failed e))

namespace Load

/-- Something was noted of a load. -/
def Mentioned (l : Load) (notes : List LoadEvent) : Prop := ∃ e ∈ notes, e.load? = some l

def Failed (l : Load) (notes : List LoadEvent) : Prop := ∃ e ∈ notes, e.Fails l

/-- A load ended, but did not fail. -/
def Over (l : Load) (notes : List LoadEvent) : Prop :=
  (∃ u, .ended l (.completed u) ∈ notes) ∨ ∃ i, .ended l (.cut i) ∈ notes

/-- The top-level statements that a load has executed so far, latest first. -/
def executions (l : Load) (notes : List LoadEvent) : List Stmt :=
  notes.filterMap fun e =>
    match e with
    | .executed l' st => if l' = l then some st else none
    | _ => none

variable {l : Load} {e : LoadEvent} {notes notes' : List LoadEvent}

theorem Mentioned.of_cons (h : l.Mentioned (e :: notes)) : e.load? = some l ∨ l.Mentioned notes := by
  obtain ⟨e', he', hl⟩ := h
  rcases List.mem_cons.mp he' with rfl | he'
  · exact .inl hl
  · exact .inr ⟨e', he', hl⟩

theorem Failed.mono (h : l.Failed notes) (hn : notes ⊆ notes') : l.Failed notes' := by
  obtain ⟨e, he, hl⟩ := h
  exact ⟨e, hn he, hl⟩

theorem Over.mono (h : l.Over notes) (hn : notes ⊆ notes') : l.Over notes' :=
  h.imp (fun ⟨u, h⟩ => ⟨u, hn h⟩) fun ⟨i, h⟩ => ⟨i, hn h⟩

theorem Failed.mentioned (h : l.Failed notes) : l.Mentioned notes := by
  obtain ⟨e, he, hl⟩ := h
  refine ⟨e, he, ?_⟩
  cases hl <;> rfl

theorem executions_cons_of_ne (h : ∀ st, e ≠ .executed l st) :
    l.executions (e :: notes) = l.executions notes := by
  unfold executions
  rw [List.filterMap_cons]
  split
  · rfl
  · rename_i st hst
    split at hst
    · rename_i l' st'
      split at hst
      · rename_i hl
        exact (h st' (by rw [hl])).elim
      · cases hst
    · cases hst

theorem executions_cons_self (st : Stmt) :
    l.executions (.executed l st :: notes) = st :: l.executions notes := by
  unfold executions
  rw [List.filterMap_cons]
  simp

theorem executions_eq_nil (h : ¬ l.Mentioned notes) : l.executions notes = [] := by
  unfold executions
  rw [List.filterMap_eq_nil_iff]
  intro e he
  split
  · rename_i l' st
    by_cases hl : l' = l
    · exact (h ⟨_, he, congrArg some hl⟩).elim
    · rw [if_neg hl]
  · rfl

end Load

/-- The loads that have started and not ended, innermost first. -/
def openLoads : List LoadEvent → List Load
  | [] => []
  | .started _ l _ :: notes => l :: openLoads notes
  | .ended _ _ :: notes => (openLoads notes).tail
  | .run :: notes | .reached _ _ :: notes | .executed _ _ :: notes => openLoads notes

/-- No load has failed since the latest unit was begun from outside. -/
inductive Unharmed : List LoadEvent → Prop
  | nil : Unharmed []
  | run {notes : List LoadEvent} : Unharmed (.run :: notes)
  | cons {e : LoadEvent} {notes : List LoadEvent} :
      (∀ l, ¬ e.Fails l) → Unharmed notes → Unharmed (e :: notes)

/-- What failed before the notes of an unharmed run failed before that run. -/
theorem Unharmed.failed {l : Load} {middle earlier : List LoadEvent}
    (h : Unharmed (middle ++ earlier)) (hrun : LoadEvent.run ∉ middle)
    (hl : l.Failed (middle ++ earlier)) : l.Failed earlier := by
  induction middle with
  | nil => exact hl
  | cons e middle ih =>
      cases h with
      | run => exact (hrun (List.mem_cons_self ..)).elim
      | cons he h =>
          obtain ⟨e', he', hfails⟩ := hl
          rcases List.mem_cons.mp he' with rfl | he'
          · exact (he l hfails).elim
          · exact ih h (fun hr => hrun (List.mem_cons_of_mem _ hr)) ⟨e', he', hfails⟩

/-! ### The invariant -/

/-- The loads are of different files, all of which are registered in the first loader. -/
structure World.Holds (w : World) (loads : List Load) : Prop where
  distinct : (loads.map Load.place).Nodup
  first : ∀ l ∈ loads, l.loader = ⟨0⟩
  registered : ∀ l ∈ loads, (w.loaders.get ⟨0⟩).cached? l.place = some l.module
  files : ∀ l ∈ loads, l.place ∈ w.files.places

namespace World.Holds
variable {w w' : World} {l : Load} {loads : List Load}

/-- Only the files matter, and under which the modules are registered in the first loader. -/
theorem transfer (h : w.Holds loads)
    (hcached : ∀ l ∈ loads,
      (w'.loaders.get ⟨0⟩).cached? l.place = (w.loaders.get ⟨0⟩).cached? l.place)
    (hfiles : ∀ l ∈ loads, l.place ∈ w.files.places → l.place ∈ w'.files.places) :
    w'.Holds loads where
  distinct := h.distinct
  first := h.first
  registered l hl := (hcached l hl).trans (h.registered l hl)
  files l hl := hfiles l hl (h.files l hl)

theorem tail (h : w.Holds (l :: loads)) : w.Holds loads where
  distinct := (List.nodup_cons.mp h.distinct).2
  first := (List.forall_mem_cons.mp h.first).2
  registered := (List.forall_mem_cons.mp h.registered).2
  files := (List.forall_mem_cons.mp h.files).2

theorem place_ne (h : w.Holds (l :: loads)) {l' : Load} (hl' : l' ∈ loads) : l'.place ≠ l.place :=
  fun hp => (List.nodup_cons.mp h.distinct).1 (hp ▸ List.mem_map_of_mem hl')

theorem not_mem {p : RealPath} (h : w.Holds loads) (hnone : (w.loaders.get ⟨0⟩).cached? p = none) :
    p ∉ loads.map Load.place := by
  intro hmem
  obtain ⟨l, hl, rfl⟩ := List.mem_map.mp hmem
  rw [h.registered l hl] at hnone
  cases hnone

/-- A load of a file that was not registered, and is now. -/
theorem cons (h : w.Holds loads) (hfirst : l.loader = ⟨0⟩) (hplace : l.place ∈ w.files.places)
    (hnone : (w.loaders.get ⟨0⟩).cached? l.place = none)
    (hloader : w'.loaders.get ⟨0⟩ = (w.loaders.get ⟨0⟩).register l.place l.module)
    (hfiles : w'.files = w.files) : w'.Holds (l :: loads) where
  distinct := List.nodup_cons.mpr ⟨h.not_mem hnone, h.distinct⟩
  first := List.forall_mem_cons.mpr ⟨hfirst, h.first⟩
  registered := by
    rw [hloader]
    exact List.forall_mem_cons.mpr ⟨Loader.cached?_register_self hnone,
      fun l' hl' => Loader.cached?_register_of_some (h.registered l' hl')⟩
  files := by
    rw [hfiles]
    exact List.forall_mem_cons.mpr ⟨hplace, h.files⟩

end World.Holds

/-- What a note says, given the notes before it. -/
def LoadEvent.Fits (one : Prop) (earlier : List LoadEvent) : LoadEvent → Prop
  | .run | .executed _ _ => True
  | .reached loads w => loads = openLoads earlier ∧ (one → w.Holds loads)
  | .started loads l w => loads = openLoads earlier ∧ (one →
      w.Holds loads ∧ l.loader = ⟨0⟩ ∧ (w.loaders.get ⟨0⟩).cached? l.place = none ∧
        l.place ∈ w.files.places ∧ Unharmed earlier ∧
        (∀ l' : Load, l'.Mentioned earlier → l'.module ≠ l.module) ∧
        ∀ loads' l' w', .started loads' l' w' ∈ earlier → l'.place = l.place → l'.Failed earlier)
  | .ended l (.completed u) => u.ok = true ∧ l.executions earlier = u.statements.reverse
  | .ended _ (.cut i) => ∀ e, i ≠ .error e
  | .ended _ _ => True

/-- Every note fits those before it. -/
inductive LoadsTold (one : Prop) : List LoadEvent → Prop
  | nil : LoadsTold one []
  | cons {e : LoadEvent} {earlier : List LoadEvent} :
      e.Fits one earlier → LoadsTold one earlier → LoadsTold one (e :: earlier)

theorem LoadsTold.split {one : Prop} {later : List LoadEvent} {e : LoadEvent}
    {earlier : List LoadEvent} (h : LoadsTold one (later ++ e :: earlier)) : e.Fits one earlier := by
  induction later with
  | nil =>
      cases h with
      | cons he _ => exact he
  | cons _ later ih =>
      cases h with
      | cons _ hrest => exact ih hrest

/-- What holds of caches and notes while the loads are going on. -/
structure Registry (one : Prop) (loads : List Load) (s : Watched World LoadEvent) : Prop where
  supplied : one → 0 < s.state.loaders.size
  single : one → ∀ home, (s.state.interpreters.get home).loader = ⟨0⟩
  holds : one → s.state.Holds loads
  going : ∀ l ∈ loads, l.module.index < s.state.modules.size
  mentioned : ∀ l : Load, l.Mentioned s.notes → l.module.index < s.state.modules.size
  /-- What was ever loaded is registered, or its load failed. -/
  started : one → ∀ loads' l w, .started loads' l w ∈ s.notes → l.loader = ⟨0⟩ ∧
    ((s.state.loaders.get ⟨0⟩).cached? l.place = some l.module ∨ l.Failed s.notes)
  /-- What is registered is being loaded, or its load did not fail. -/
  cached : ∀ r p m, (p, m) ∈ (s.state.loaders.get r).cache →
    ⟨r, p, m⟩ ∈ loads ∨ Load.Over ⟨r, p, m⟩ s.notes
  told : LoadsTold one s.notes

namespace Registry
variable {one : Prop} {loads : List Load} {s : Watched World LoadEvent} {w : World} {e : LoadEvent}

/-- Only modules, caches, the files of the loads and the loaders of interpreters matter. -/
theorem of_caches (h : Registry one loads s)
    (hhomes : one → ∀ home, (w.interpreters.get home).loader = ⟨0⟩)
    (hmodules : w.modules = s.state.modules) (hsize : s.state.loaders.size ≤ w.loaders.size)
    (hcaches : ∀ r, (w.loaders.get r).cache = (s.state.loaders.get r).cache)
    (hfiles : ∀ l ∈ loads, l.place ∈ s.state.files.places → l.place ∈ w.files.places) :
    Registry one loads ⟨w, s.notes⟩ := by
  have hcached : ∀ r p, (w.loaders.get r).cached? p = (s.state.loaders.get r).cached? p := by
    intro r p
    unfold Loader.cached?
    rw [hcaches]
  constructor
  case supplied => exact fun ho => Nat.lt_of_lt_of_le (h.supplied ho) hsize
  case single => exact hhomes
  case holds => exact fun ho => (h.holds ho).transfer (fun l _ => hcached _ _) hfiles
  case going => rw [hmodules]; exact h.going
  case mentioned => rw [hmodules]; exact h.mentioned
  case started =>
    intro ho loads' l w' hst
    rw [hcached]
    exact h.started ho loads' l w' hst
  case cached =>
    intro r p m hm
    rw [hcaches] at hm
    exact h.cached r p m hm
  case told => exact h.told

theorem sameUnits (h : Registry one loads s) (hw : s.state.SameUnits w) :
    Registry one loads ⟨w, s.notes⟩ := by
  apply h.of_caches
  case hhomes => rw [hw.interpreters]; exact h.single
  case hmodules => exact hw.modules
  case hsize => exact Nat.le_of_eq (congrArg Arena.size hw.loaders).symm
  case hcaches => exact fun r => by rw [hw.loaders]
  case hfiles => exact fun l _ hl => hw.files ▸ hl

theorem sameObjects (h : Registry one loads s) (hw : s.state.SameObjects w) :
    Registry one loads ⟨w, s.notes⟩ := by
  apply h.of_caches
  case hhomes => exact fun ho home => (hw.homes home).trans (h.single ho home)
  case hmodules => exact hw.modules
  case hsize => exact Nat.le_of_eq (congrArg Arena.size hw.loaders).symm
  case hcaches => exact fun r => by rw [hw.loaders]
  case hfiles => exact fun l _ hl => hw.files ▸ hl

/-- Something is noted that starts no load. -/
theorem note (h : Registry one loads s) (hfits : e.Fits one s.notes)
    (hload : ∀ l, e.load? = some l → l.module.index < s.state.modules.size)
    (hstarted : ∀ loads' l w, e ≠ .started loads' l w) :
    Registry one loads ⟨s.state, e :: s.notes⟩ := by
  have hsub : s.notes ⊆ e :: s.notes := List.subset_cons_self ..
  constructor
  case supplied => exact h.supplied
  case single => exact h.single
  case holds => exact h.holds
  case going => exact h.going
  case mentioned => exact fun l hl => hl.of_cons.elim (hload l) (h.mentioned l)
  case started =>
    intro ho loads' l w hst
    have hbefore := (List.mem_cons.mp hst).resolve_left (hstarted loads' l w ·.symm)
    exact (h.started ho loads' l w hbefore).imp_right (.imp_right (.mono · hsub))
  case cached => exact fun r p m hm => (h.cached r p m hm).imp_right (.mono · hsub)
  case told => exact .cons hfits h.told

end Registry

/-- What holds while the loads are going on, which are those that have started and not ended. -/
structure InLoads (one : Prop) (loads : List Load) (s : Watched World LoadEvent) : Prop extends
    Registry one loads s where
  stack : openLoads s.notes = loads

namespace InLoads
variable {one : Prop} {loads : List Load} {s : Watched World LoadEvent} {w : World}

theorem sameUnits (h : InLoads one loads s) (hw : s.state.SameUnits w) :
    InLoads one loads ⟨w, s.notes⟩ := ⟨h.toRegistry.sameUnits hw, h.stack⟩

theorem sameObjects (h : InLoads one loads s) (hw : s.state.SameObjects w) :
    InLoads one loads ⟨w, s.notes⟩ := ⟨h.toRegistry.sameObjects hw, h.stack⟩

/-- A unit is begun from outside. -/
theorem run (h : InLoads one loads s) : InLoads one loads ⟨s.state, .run :: s.notes⟩ :=
  ⟨h.note trivial nofun nofun, h.stack⟩

/-- A node is reached. -/
theorem reached (h : InLoads one loads s) :
    InLoads one loads ⟨s.state, .reached loads s.state :: s.notes⟩ :=
  ⟨h.note ⟨h.stack.symm, h.holds⟩ nofun nofun, h.stack⟩

/-- A statement of a module has been executed. -/
theorem executed {l : Load} (h : InLoads one (l :: loads) s) (st : Stmt) :
    InLoads one (l :: loads) ⟨s.state, .executed l st :: s.notes⟩ :=
  ⟨h.note trivial (fun _ hl => Option.some.inj hl ▸ h.going l (List.mem_cons_self ..)) nofun,
    h.stack⟩

end InLoads
end Treewalk
