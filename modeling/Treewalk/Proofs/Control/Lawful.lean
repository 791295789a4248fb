import Treewalk.Proofs.Control.Taking
import Treewalk.Proofs.Run.Homes

/-!
# The world of accepted units

Functions and methods come from accepted units, so that their bodies are legal, in every state that a
session passes.
-/
namespace Treewalk

/-- The parts of a legal node are legal. -/
theorem Node.Legal.part {inLoop inFunction : Bool} {n m : Node} (h : Node.Legal inLoop inFunction n)
    (hm : m ∈ n.parts) : ∃ inLoop inFunction, Node.Legal inLoop inFunction m := by
  cases h with
  | expr hparts => exact ⟨_, _, hparts m hm⟩
  | expression he | print he =>
      cases List.mem_singleton.mp hm
      exact ⟨_, _, he⟩
  | «if» hcondition hthen helse =>
      rcases List.mem_cons.mp hm with rfl | hm
      · exact ⟨_, _, hcondition⟩
      rcases List.mem_cons.mp hm with rfl | hm
      · exact ⟨_, _, hthen⟩
      obtain ⟨st, hst, rfl⟩ := List.mem_map.mp hm
      exact ⟨_, _, helse st (Option.mem_toList.mp hst)⟩
  | «while» hcondition hbody hincrement =>
      rcases List.mem_cons.mp hm with rfl | hm
      · exact ⟨_, _, hcondition⟩
      rcases List.mem_cons.mp hm with rfl | hm
      · exact ⟨_, _, hbody⟩
      obtain ⟨e, he, rfl⟩ := List.mem_map.mp hm
      exact ⟨_, _, hincrement e (Option.mem_toList.mp he)⟩
  | «return» hvalue =>
      obtain ⟨e, he, rfl⟩ := List.mem_map.mp hm
      exact ⟨_, _, hvalue e (Option.mem_toList.mp he)⟩
  | «class» =>
      rename_i superclass _ _
      cases superclass with
      | none => cases hm
      | some use =>
          cases List.mem_singleton.mp hm
          exact ⟨false, false, .expr fun _ hnone => nomatch hnone⟩
  | var | block | «break» | «continue» | declaration | importModule | function => cases hm

/-- So is what is inside them. -/
theorem Node.Legal.inner {inLoop inFunction : Bool} {p q : Position}
    (h : Node.Legal inLoop inFunction p.node) (hq : Inner p q) :
    ∃ inLoop inFunction, Node.Legal inLoop inFunction q.node := by
  cases hq with
  | part hm => exact h.part hm
  | initial =>
      cases h with
      | var hinitial => exact ⟨_, _, hinitial _ rfl⟩
  | block =>
      cases h with
      | block hbody => exact ⟨_, _, hbody _ (List.mem_append_right _ (List.mem_cons_self ..))⟩
  | declared =>
      cases h with
      | declaration hf => exact ⟨_, _, hf⟩
  | body he =>
      cases h with
      | function hbody =>
          rw [he] at hbody
          exact ⟨_, _, hbody _ (List.mem_append_right _ (List.mem_cons_self ..))⟩
  | method hf | inherited hf =>
      cases h with
      | «class» hmethods => exact ⟨_, _, hmethods _ hf⟩

theorem Node.Legal.within {inLoop inFunction : Bool} {p q : Position}
    (h : Node.Legal inLoop inFunction p.node) (hq : Within p q) :
    ∃ inLoop inFunction, Node.Legal inLoop inFunction q.node := by
  induction hq with
  | refl => exact ⟨_, _, h⟩
  | tail _ hstep ih =>
      obtain ⟨l, f, ih⟩ := ih
      exact ih.inner hstep

/-- A function at home is legal. -/
theorem Closure.AtHome.legal {s : Watched World Event} {f : Closure} (h : f.AtHome s) :
    f.declaration.Legal := by
  obtain ⟨text, st, hat⟩ := h
  obtain ⟨frames, hwithin⟩ := hat.within
  have hst := UnitText.legal hat.accepted.1 st hat.accepted.2
  obtain ⟨l, i, hlegal⟩ := Node.Legal.within (p := ⟨[], .stmt st⟩) hst hwithin
  exact hlegal.body

theorem Good.lawful {current : Prop} {n : Nat} {s : Watched World Event} (h : Good current n s) :
    s.state.Lawful := by
  constructor
  case functions =>
    intro r
    rcases Nat.lt_or_ge r.index s.state.functions.size with hr | hr
    · exact (h.function_atHome hr).legal
    · rw [Arena.get_of_le _ hr]
      exact fun _ hst => nomatch hst
  case methods => exact fun c name f hf => (h.method_atHome hf).legal

end Treewalk
