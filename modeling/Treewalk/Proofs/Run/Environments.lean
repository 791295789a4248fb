import Treewalk.Proofs.Run.Sessions

/-!
# Scopes where nodes run

Wherever a node is evaluated, as many scopes stand around it as name resolution had open when it
visited the node, and each is the scope of the same construct. A name that is read through its hops
is there, unless it is read by a lambda expression in its own initial value.
-/
namespace Treewalk

section
variable {current : Prop} {steps : List SessionStep} {later earlier : List Event} {m : Moment}
  {site : Site} {n : Node} {w : World}

/-- Whatever is noted of a node was noted where the node stands. -/
theorem Session.noted (hcurrent : current → ∀ step ∈ steps, step.Current)
    (h : (Session.watch steps).notes = later ++ .node m site n w :: earlier) :
    Good current 0 ⟨w, earlier⟩ ∧ ∃ frames, At ⟨w, earlier⟩ site ⟨frames, n⟩ := by
  have htold := (Session.watch_good hcurrent).told
  rw [h] at htold
  obtain ⟨hsane, frames, hat⟩ := htold.split
  exact ⟨⟨hsane, htold.earlier, Nat.zero_le _⟩, frames, hat⟩

/-- A session that runs one text. -/
def Session.script (source : String) : List SessionStep :=
  [.addLoader [], .addInterpreter "__main__" ⟨0⟩, .run ⟨0⟩ "<lox>" source]

/-- Whether a variable is reached that passes a check. -/
def Event.reaches (check : Site → NameUse → World → Bool) : Event → Bool
  | .node .reached site (.expr (.name use)) w => check site use w
  | _ => false

end
end Treewalk
