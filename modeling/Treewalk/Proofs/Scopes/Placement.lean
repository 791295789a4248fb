import Treewalk.Proofs.Scopes.Agreement
import Treewalk.Proofs.Scopes.Visits

/-!
# Resolved positions

What name resolution leaves behind at a position. The hops of a use lead to a frame that knows the
name, a construct declares no name twice, and the node was visited when as many scopes were open as
there are frames, each of which was closed as the scope of the construct of its frame.
-/
namespace Treewalk

/-- No name is declared twice. -/
def Construct.Distinct (c : Construct) : Prop := (c.declares.map Prod.fst).Nodup

/-- A frame so many hops away offers its names to a use. The name whose initial value it is making is
among them, but not for a read that stands in this very frame. -/
def Frame.Offers (f : Frame) (form : UseForm) (name : String) (hops : Nat) : Prop :=
  name ∈ f.names ∨ f.pending = some name ∧ (form = .read → 0 < hops)

namespace NameUse

/-- The hops lead to a frame that knows the name. -/
def Found (use : NameUse) (frames : List Frame) : Prop :=
  ∀ h, use.hops = some h → ∃ f, frames[h]? = some f ∧ f.Knows use.name.lexeme

/-- A name that is read is declared, unless a function stands between its own initial value and the
use. -/
def Reads (use : NameUse) (frames : List Frame) : Prop :=
  ∀ h, use.hops = some h → ∃ f, frames[h]? = some f ∧
    (use.name.lexeme ∈ f.names ∨ f.pending = some use.name.lexeme ∧ 0 < h)

/-- No constant declared before is assigned to. -/
def Assigns (use : NameUse) (K : List String) (frames : List Frame) : Prop :=
  (∀ h, use.hops = some h → ∃ f, frames[h]? = some f ∧ f.Knows use.name.lexeme ∧
    (use.name.lexeme, .constant) ∉ f.bound) ∧
  (use.hops = none → use.name.lexeme ∉ K)

/-- The hops lead to the innermost frame that offers the name; there are none if no frame does. -/
def Lexical (use : NameUse) (form : UseForm) (frames : List Frame) : Prop :=
  ∀ n, use.hops = some n ↔ Innermost (fun m f => f.Offers form use.name.lexeme m) frames n

theorem Lexical.found {use : NameUse} {form : UseForm} {frames : List Frame}
    (h : use.Lexical form frames) : use.Found frames := by
  intro n hn
  obtain ⟨⟨f, hf, hoffers⟩, -⟩ := (h n).mp hn
  exact ⟨f, hf, hoffers.imp_right And.left⟩

theorem Lexical.reads {use : NameUse} {frames : List Frame} (h : use.Lexical .read frames) :
    use.Reads frames := by
  intro n hn
  obtain ⟨⟨f, hf, hoffers⟩, -⟩ := (h n).mp hn
  exact ⟨f, hf, hoffers.imp_right fun hp => ⟨hp.1, hp.2 rfl⟩⟩

/-- A declaration of another name makes no difference. -/
theorem Lexical.of_declaring {use : NameUse} {form : UseForm} {frames : List Frame} {name : String}
    {m : Mutability} (h : use.Lexical form (declaring [(name, m)] frames))
    (hne : use.name.lexeme ≠ name) : use.Lexical form frames := by
  cases frames with
  | nil => exact h
  | cons f outer =>
      have hoffers : Frame.Offers { f with bound := f.bound ++ [(name, m)] } form use.name.lexeme 0 ↔
          f.Offers form use.name.lexeme 0 := by
        simp [Frame.Offers, Frame.names, hne]
      intro n
      rw [h n]
      cases n with
      | zero => simp only [declaring, Innermost.cons_zero, hoffers]
      | succ n => simp only [declaring, Innermost.cons_succ, hoffers]

theorem Reads.found {use : NameUse} {frames : List Frame} (h : use.Reads frames) :
    use.Found frames := by
  intro n hn
  obtain ⟨f, hf, hknows⟩ := h n hn
  exact ⟨f, hf, hknows.imp_right And.left⟩

theorem Assigns.found {use : NameUse} {K : List String} {frames : List Frame}
    (h : use.Assigns K frames) : use.Found frames := by
  intro n hn
  obtain ⟨f, hf, hknows, -⟩ := h.1 n hn
  exact ⟨f, hf, hknows⟩

end NameUse

namespace Position

/-- What name resolution makes sure of, where the global constants so far are `K`. -/
def Fits (K : List String) (q : Position) : Prop :=
  match q.node with
  | .expr (.name use) => use.Lexical .read q.frames
  | .expr (.this use) => use.Reads q.frames
  | .expr (.super use _) => use.Lexical .super q.frames
  | .expr (.assign use _) => use.Assigns K q.frames ∧ use.Lexical .assign q.frames
  | .stmt (.block body) => (Construct.block body).Distinct
  | .stmt (.if _ s s') => s.declares = [] ∧ ∀ t ∈ s', t.declares = []
  | .stmt (.while _ s _) => s.declares = []
  | .function f => (Construct.function f).Distinct
  | _ => True

theorem Fits.found {K : List String} {q : Position} {use : NameUse} (h : q.Fits K)
    (hu : q.node.use? = some use) : use.Found q.frames := by
  obtain ⟨frames, n⟩ := q
  cases n with
  | expr e =>
      cases e with
      | name use' =>
          cases hu
          exact NameUse.Lexical.found h
      | this use' =>
          cases hu
          exact NameUse.Reads.found h
      | super use' method =>
          cases hu
          exact NameUse.Lexical.found h
      | assign use' value =>
          cases hu
          exact h.1.found
      | _ => cases hu
  | stmt s => cases hu
  | function f => cases hu

end Position

/-- The scope with a number was closed as the scope of a construct, with all its names. -/
def Closes (notes : List Visit) (id : Nat) (c : Construct) : Prop :=
  ∃ scope, .closed id c scope ∈ notes ∧
    ∀ x ∈ c.declares.map Prod.fst, scope.names.contains x = true

theorem Closes.mono {notes notes' : List Visit} {id : Nat} {c : Construct}
    (h : Closes notes id c) (hn : notes ⊆ notes') : Closes notes' id c := by
  obtain ⟨scope, hscope, hnames⟩ := h
  exact ⟨scope, hn hscope, hnames⟩

/-- A position is resolved. The scopes numbered `ids`, of the constructs `outer`, need not be closed
yet. -/
structure Placed (K : List String) (notes : List Visit) (ids : List Nat) (outer : List Construct)
    (q : Position) : Prop where
  fits : q.Fits K
  visited : ∃ inside inner scopes, .visited (inside ++ ids) scopes q.node ∈ notes ∧
    scopes.length = q.frames.length ∧ q.frames.map Frame.construct = inner ++ outer ∧
    List.Forall₂ (Closes notes) inside inner ∧
    ∀ use h, q.node.use? = some use → use.hops = some h →
      ∃ scope, scopes[h]? = some scope ∧ scope.names.contains use.name.lexeme = true

namespace Placed
variable {K : List String} {notes notes' : List Visit} {ids : List Nat} {outer : List Construct}
  {q : Position}

theorem mono (h : Placed K notes ids outer q) (hn : notes ⊆ notes') :
    Placed K notes' ids outer q := by
  obtain ⟨inside, inner, scopes, hv, hlen, hframes, hclosed, huse⟩ := h.visited
  exact ⟨h.fits, inside, inner, scopes, hn hv, hlen, hframes, hclosed.imp fun _ _ hc => hc.mono hn,
    huse⟩

/-- The innermost of the open scopes is closed. -/
theorem close {id : Nat} {c : Construct} (h : Placed K notes (id :: ids) (c :: outer) q)
    (hc : Closes notes id c) : Placed K notes ids outer q := by
  obtain ⟨inside, inner, scopes, hv, hlen, hframes, hclosed, huse⟩ := h.visited
  have hids : inside ++ id :: ids = (inside ++ [id]) ++ ids := by simp
  have hconstructs : inner ++ c :: outer = (inner ++ [c]) ++ outer := by simp
  rw [hids] at hv
  rw [hconstructs] at hframes
  exact ⟨h.fits, inside ++ [id], inner ++ [c], scopes, hv, hlen, hframes,
    List.rel_append hclosed (.cons hc .nil), huse⟩

end Placed
end Treewalk
