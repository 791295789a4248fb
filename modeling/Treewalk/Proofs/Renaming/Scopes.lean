import Treewalk.Proofs.Renaming.Trees
import Treewalk.Proofs.Scopes.Lookup

/-!
# Scopes with a local renamed

Name resolution finds a renamed local where it found the local before: in every scope the names that
are declared are the same but for the old one, and a use that is bound in a scope in which that is
renamed looks for the new one.
-/
namespace Treewalk

open Renaming (Mark Context)

namespace Renaming
variable {ρ : Renaming}

/-- What is declared in a scope of the first tree is declared in that of the second one, renamed if
the scope is marked. -/
structure Declared (ρ : Renaming) (mark : Mark) (outer : List Mark) (s s' : StaticScope) :
    Prop where
  names : ρ.Binds mark.renamed s.names s'.names
  constants : ∀ z, (mark.renamed = true → z ≠ ρ.new) →
    (ρ.name mark.renamed z ∈ s'.constants ↔ z ∈ s.constants)
  gone : mark.renamed = true → s'.names.find? ρ.old = none
  fresh : Marked (mark :: outer) → s.names.find? ρ.new = none
  pending : s.names.find? ρ.old = some false → mark.pending = true

/-- The open scopes, innermost first. -/
inductive AllDeclared (ρ : Renaming) : List Mark → List StaticScope → List StaticScope → Prop
  | nil : AllDeclared ρ [] [] []
  | cons {mark : Mark} {marks : List Mark} {s s' : StaticScope} {ss ss' : List StaticScope} :
      Declared ρ mark marks s s' → AllDeclared ρ marks ss ss' →
      AllDeclared ρ (mark :: marks) (s :: ss) (s' :: ss')

section
variable {mark : Mark} {marks : List Mark} {s s' : StaticScope} {ss ss' : List StaticScope}
  {z : String}

/-- What a use looks for that is bound further out has not come into the scope. -/
theorem Declared.find?_outer (h : Declared ρ mark marks s s')
    (hz : Marked (mark :: marks) → z ≠ ρ.new) {r : Bool}
    (hr : r = true → Marked marks) :
    s'.names.find? (ρ.name r z) = s.names.find? z ∨
      z = ρ.old ∧ s'.names.find? (ρ.name r z) = none := by
  have hz' : mark.renamed = true → z ≠ ρ.new := fun hm => hz ⟨mark, List.mem_cons_self .., hm⟩
  have hsame := h.names z hz'
  by_cases hold : z = ρ.old
  · subst hold
    cases hm : mark.renamed <;> cases r
    · rw [hm] at hsame
      exact .inl hsame
    · obtain ⟨m, hmem, hmarked⟩ := hr rfl
      have hnone := h.names ρ.new fun hm' => by rw [hm] at hm'; cases hm'
      rw [hm, name_false, h.fresh ⟨m, List.mem_cons_of_mem _ hmem, hmarked⟩] at hnone
      rw [name_old]
      exact .inr ⟨rfl, hnone⟩
    · rw [name_false]
      exact .inr ⟨rfl, h.gone hm⟩
    · rw [hm] at hsame
      exact .inl hsame
  · rw [name_of_ne hold] at hsame ⊢
    exact .inl hsame

theorem Declared.contains_outer (h : Declared ρ mark marks s s')
    (hz : Marked (mark :: marks) → z ≠ ρ.new) {r : Bool}
    (hr : r = true → Marked marks) (hc : s.names.contains z = false) :
    s'.names.contains (ρ.name r z) = false := by
  unfold Bindings.contains at hc ⊢
  rcases h.find?_outer hz hr with hsame | ⟨-, hnone⟩
  · rw [hsame]
    exact hc
  · rw [hnone]
    rfl

theorem renames_succ (hops : Option Nat) :
    renames (mark :: marks) (hops.map (· + 1)) = renames marks hops := by cases hops <;> rfl

theorem fresh_outer (hz : Marked (mark :: marks) → z ≠ ρ.new) :
    Marked marks → z ≠ ρ.new :=
  fun ⟨m, hm, hrenamed⟩ => hz ⟨m, List.mem_cons_of_mem _ hm, hrenamed⟩

/-- The hops of a name are those of what becomes of it. -/
theorem AllDeclared.hops? (h : AllDeclared ρ marks ss ss')
    (hz : Marked marks → z ≠ ρ.new) :
    Scoping.hops? (ρ.name (renames marks (Scoping.hops? z ss)) z) ss' = Scoping.hops? z ss := by
  induction h with
  | nil => rfl
  | @cons mark marks s s' ss ss' hs _ ih =>
      by_cases hc : s.names.contains z = true
      · have hc' := hs.names.contains fun hm => hz ⟨mark, List.mem_cons_self .., hm⟩
        have hhops : Scoping.hops? z (s :: ss) = some 0 := if_pos hc
        rw [hhops]
        exact if_pos (hc'.trans hc)
      · have hhops : Scoping.hops? z (s :: ss) = (Scoping.hops? z ss).map (· + 1) := if_neg hc
        have hc' := hs.contains_outer (r := renames marks (Scoping.hops? z ss)) hz
          marked_of_renames (Bool.not_eq_true _ ▸ hc)
        rw [hhops, renames_succ]
        exact (if_neg (ne_true_of_eq_false hc')).trans (congrArg _ (ih (fresh_outer hz)))

/-- It denotes a constant if the name does. -/
theorem AllDeclared.isConstantIn (h : AllDeclared ρ marks ss ss')
    (hz : Marked marks → z ≠ ρ.new) (globals : List String) :
    Scoping.isConstantIn (ρ.name (renames marks (Scoping.hops? z ss)) z) globals ss' =
      Scoping.isConstantIn z globals ss := by
  induction h with
  | nil => exact congrArg (decide <| · ∈ globals) (name_false z)
  | @cons mark marks s s' ss ss' hs _ ih =>
      have hz' : mark.renamed = true → z ≠ ρ.new := fun hm => hz ⟨mark, List.mem_cons_self .., hm⟩
      by_cases hc : s.names.contains z = true
      · have hc' := hs.names.contains hz'
        have hhops : Scoping.hops? z (s :: ss) = some 0 := if_pos hc
        have hrenames : renames (mark :: marks) (some 0) = mark.renamed := rfl
        rw [hhops, hrenames]
        unfold Scoping.isConstantIn
        rw [hc', hc, if_pos rfl, if_pos rfl]
        exact decide_eq_decide.mpr (hs.constants z hz')
      · have hhops : Scoping.hops? z (s :: ss) = (Scoping.hops? z ss).map (· + 1) := if_neg hc
        have hc' := hs.contains_outer (r := renames marks (Scoping.hops? z ss)) hz
          marked_of_renames (Bool.not_eq_true _ ▸ hc)
        rw [hhops, renames_succ]
        unfold Scoping.isConstantIn
        rw [hc', if_neg Bool.false_ne_true, if_neg hc]
        exact ih (fresh_outer hz)

end

/-! ### Declarations in a scope -/

namespace Declared
variable {mark : Mark} {marks : List Mark} {s s' : StaticScope} {z : String}

/-- A name of which the declaration begins. -/
theorem begin (h : Declared ρ mark marks s s')
    (hz : Marked (mark :: marks) → z ≠ ρ.new) :
    Declared ρ { mark with pending := mark.pending || z == ρ.old } marks
      { s with names := s.names.insert z false }
      { s' with names := s'.names.insert (ρ.name mark.renamed z) false } where
  names := h.names.insert (fun hm => hz ⟨mark, List.mem_cons_self .., hm⟩) false
  constants := h.constants
  gone := fun hm => by
    change mark.renamed = true at hm
    rw [hm, Bindings.find?_insert, if_neg (name_ne_old z)]
    exact h.gone hm
  fresh := fun hm => by
    have hm' : Marked (mark :: marks) := by simpa only [Marked, List.exists_mem_cons_iff] using hm
    rw [Bindings.find?_insert, if_neg (hz hm')]
    exact h.fresh hm'
  pending := fun hp => by
    rw [Bindings.find?_insert] at hp
    by_cases hz : z = ρ.old
    · simp only [hz, beq_self_eq_true, Bool.or_true]
    · rw [if_neg hz] at hp
      simp only [h.pending hp, Bool.true_or]

/-- A name of which the declaration is complete. -/
theorem complete (h : Declared ρ { mark with pending := mark.pending || z == ρ.old } marks s s')
    (hz : Marked (mark :: marks) → z ≠ ρ.new) :
    Declared ρ mark marks { s with names := s.names.insert z true }
      { s' with names := s'.names.insert (ρ.name mark.renamed z) true } where
  names := h.names.insert (fun hm => hz ⟨mark, List.mem_cons_self .., hm⟩) true
  constants := h.constants
  gone := fun hm => by
    rw [hm, Bindings.find?_insert, if_neg (name_ne_old z)]
    exact h.gone hm
  fresh := fun hm => by
    rw [Bindings.find?_insert, if_neg (hz hm)]
    exact h.fresh (by simpa only [Marked, List.exists_mem_cons_iff] using hm)
  pending := fun hp => by
    rw [Bindings.find?_insert] at hp
    by_cases hz : z = ρ.old
    · rw [if_pos hz] at hp
      cases hp
    · rw [if_neg hz] at hp
      have hpending := h.pending hp
      rwa [beq_eq_false_iff_ne.mpr hz, Bool.or_false] at hpending

/-- A name that is made a constant. -/
theorem constant (h : Declared ρ mark marks s s')
    (hz : Marked (mark :: marks) → z ≠ ρ.new) :
    Declared ρ mark marks { s with constants := s.constants.insert z }
      { s' with constants := s'.constants.insert (ρ.name mark.renamed z) } := by
  have hz' : mark.renamed = true → z ≠ ρ.new := fun hm => hz ⟨mark, List.mem_cons_self .., hm⟩
  refine { h with constants := fun y hy => ?_ }
  rw [List.mem_insert_iff, List.mem_insert_iff, h.constants y hy, name_inj hy hz']

/-- A name that is made a variable. -/
theorem notConstant (h : Declared ρ mark marks s s')
    (hz : Marked (mark :: marks) → z ≠ ρ.new) :
    Declared ρ mark marks { s with constants := s.constants.filter (· ≠ z) }
      { s' with constants := s'.constants.filter (· ≠ ρ.name mark.renamed z) } := by
  have hz' : mark.renamed = true → z ≠ ρ.new := fun hm => hz ⟨mark, List.mem_cons_self .., hm⟩
  refine { h with constants := fun y hy => ?_ }
  simp only [List.mem_filter, h.constants y hy, ne_eq, name_inj hy hz']

end Declared
end Renaming
end Treewalk
