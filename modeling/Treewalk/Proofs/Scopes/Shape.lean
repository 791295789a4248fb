import Treewalk.Token.Scan
import Treewalk.Proofs.Scopes.Nodes

/-!
# The shape of trees that were read

What the grammar rules out: a branch or a loop body that declares something, a function statement
without a name, a reserved word as a name that is declared or changed. In a tree just read no use is
resolved.
-/
namespace Treewalk

/-- A token of a word is of the kind of the word. -/
def Token.Worded (t : Token) : Prop :=
  t.kind = .identifier ∨ t.kind = .this ∨ t.kind = .super → TokenKind.ofWord t.lexeme = t.kind

namespace Piece

theorem single?_kind {c : Char} {kind : TokenKind} (h : TokenKind.single? c = some kind) :
    kind ≠ .identifier ∧ kind ≠ .this ∧ kind ≠ .super := by
  unfold TokenKind.single? at h
  split at h <;> cases h <;> decide

theorem pair?_kind {c : Char} {kind kind' : TokenKind} (h : TokenKind.pair? c = some (kind, kind')) :
    (kind ≠ .identifier ∧ kind ≠ .this ∧ kind ≠ .super) ∧
      kind' ≠ .identifier ∧ kind' ≠ .this ∧ kind' ≠ .super := by
  unfold TokenKind.pair? at h
  split at h <;> cases h <;> decide

theorem number_kind {c : Char} {cs : List Char} {kind : TokenKind} {literal : Option Literal}
    (h : (number c cs).token = some (kind, literal)) : kind = .number := by
  unfold number at h
  split at h
  · split at h <;> cases h <;> rfl
  · cases h
    rfl

theorem string_kind {c : Char} {cs : List Char} {kind : TokenKind} {literal : Option Literal}
    (h : (string c cs).token = some (kind, literal)) : kind = .string := by
  unfold string at h
  simp only at h
  split at h
  · cases h
    rfl
  · cases h

theorem slash_kind {c : Char} {cs : List Char} {kind : TokenKind} {literal : Option Literal}
    (h : (slash c cs).token = some (kind, literal)) : kind = .slash := by
  unfold slash at h
  split at h
  · cases h
  · cases h
    rfl

theorem worded {c : Char} {cs : List Char} {kind : TokenKind} {literal : Option Literal}
    (h : (ofChars c cs).token = some (kind, literal))
    (hk : kind = .identifier ∨ kind = .this ∨ kind = .super) :
    TokenKind.ofWord (String.ofList (ofChars c cs).consumed) = kind := by
  have hno : kind ≠ .identifier ∧ kind ≠ .this ∧ kind ≠ .super → False :=
    fun ⟨h₁, h₂, h₃⟩ => hk.elim h₁ fun hk => hk.elim h₂ h₃
  unfold ofChars at h ⊢
  split at h
  · next hs =>
      cases h
      exact (hno (single?_kind hs)).elim
  · next hs hp =>
      have hp := pair?_kind hp
      split at h
      · cases h
        exact (hno hp.1).elim
      · cases h
        exact (hno hp.2).elim
  · next hs hp =>
      split at h
      · have := slash_kind h
        subst this
        exact (hno (by decide)).elim
      · split at h
        · cases h
        · split at h
          · have := string_kind h
            subst this
            exact (hno (by decide)).elim
          · split at h
            · have := number_kind h
              subst this
              exact (hno (by decide)).elim
            · split at h
              · simp only [*, if_false, if_true]
                cases h
                rfl
              · cases h

end Piece

namespace Scanner

theorem tick_worded {s : Scanner} (hs : ∀ t ∈ s.tokens, t.Worded) (c : Char) (cs : List Char) :
    ∀ t ∈ (s.tick c cs).tokens, t.Worded := by
  intro t ht
  unfold tick at ht
  simp only at ht
  split at ht
  · next kind literal hp =>
      rcases Array.mem_push.mp ht with ht | rfl
      · exact hs t ht
      · exact fun hk => Piece.worded hp hk
  · exact hs t ht

theorem run_worded (fuel : Nat) {s : Scanner} (hs : ∀ t ∈ s.tokens, t.Worded) :
    ∀ t ∈ (run fuel s).tokens, t.Worded := by
  induction fuel generalizing s with
  | zero => exact hs
  | succ fuel ih =>
      unfold run
      split
      · exact hs
      · exact ih (tick_worded hs _ _)

end Scanner

theorem scan_worded (source : String) : ∀ t ∈ (scan source).tokens, t.Worded := by
  intro t ht
  have hstart : ∀ t ∈ (#[] : Array Token), t.Worded := fun t ht => by simp at ht
  exact Scanner.run_worded _ hstart t (Array.mem_toList_iff.mp ht)

/-- What the grammar and the scanner say of a node by itself. -/
def Node.Formed : Node → Prop
  | .stmt (.var _ name _) | .stmt (.class name _ _) => TokenKind.ofWord name.lexeme = .identifier
  | .stmt (.if _ s s') => s.declares = [] ∧ ∀ t ∈ s', t.declares = []
  | .stmt (.while _ s _) => s.declares = []
  | .stmt (.function f) =>
      f.name.isSome = true ∧ TokenKind.ofWord f.displayName = .identifier
  | .expr (.assign use _) => TokenKind.ofWord use.name.lexeme = .identifier
  | .expr (.set _ name _) => TokenKind.ofWord name.lexeme = .identifier
  | .expr (.this use) => TokenKind.ofWord use.name.lexeme = .this
  | .expr (.super use _) => TokenKind.ofWord use.name.lexeme = .super
  | .function f => ∀ p ∈ f.parameters, TokenKind.ofWord p.lexeme = .identifier
  | _ => True

/-- A node just read. -/
def Node.Raw (n : Node) : Prop := n.Formed ∧ ∀ use, n.use? = some use → use.hops = none

/-- A tree just read. -/
def Node.Unresolved (n : Node) : Prop := Everywhere (fun q => q.node.Raw) ⟨[], n⟩

namespace Token.Worded
variable {t : Token} (h : t.Worded)
include h

theorem identifier (hk : t.kind = .identifier) : TokenKind.ofWord t.lexeme = .identifier :=
  (h (.inl hk)).trans hk

theorem this (hk : t.kind = .this) : TokenKind.ofWord t.lexeme = .this :=
  (h (.inr (.inl hk))).trans hk

theorem super (hk : t.kind = .super) : TokenKind.ofWord t.lexeme = .super :=
  (h (.inr (.inr hk))).trans hk

end Token.Worded

namespace Node
variable {ts : List Token} {n : Node}

theorem Shaped.hops (h : n.Shaped) {use : NameUse} (hu : n.use? = some use) : use.hops = none := by
  cases n with
  | expr e =>
      cases e with
      | name | assign | this | super =>
          cases hu
          exact h
      | _ => cases hu
  | stmt | function => cases hu

/-- The name of a function stands in its declaration, not in the statement that declares it. -/
theorem ReadFrom.formed (h : n.ReadFrom ts) (hdeclared : ∀ f, n = .stmt (.function f) →
    (Node.function f).ReadFrom ts) (hts : ∀ t ∈ ts, t.Worded) : n.Formed := by
  obtain ⟨⟨hmem, hk, -⟩, hshaped⟩ := h
  have hword : ∀ t ∈ n.tokens, t.Worded := fun t ht => hts t (hmem t ht)
  cases n with
  | expr e =>
      cases e with
      | assign | set => exact (hword _ List.mem_cons_self).identifier hk
      | this => exact (hword _ List.mem_cons_self).this hk
      | super => exact (hword _ List.mem_cons_self).super hk.1
      | _ => trivial
  | function f =>
      intro p hp
      have hp : p ∈ f.name.toList ++ f.parameters := List.mem_append_right _ hp
      exact (hword p hp).identifier (hk p hp)
  | stmt s =>
      cases s with
      | var => exact (hword _ List.mem_cons_self).identifier hk
      | «class» => exact (hword _ List.mem_cons_self).identifier hk.1
      | «if» | «while» => exact hshaped
      | function f =>
          obtain ⟨hmem', hk', -⟩ := (hdeclared f rfl).written
          obtain ⟨name | name, params, body⟩ := f
          · cases hshaped
          · have hname : name ∈ (some name).toList ++ params := List.mem_cons_self
            exact ⟨rfl, (hts name (hmem' name hname)).identifier (hk' name hname)⟩
      | _ => trivial

theorem AllRead.unresolved (h : n.AllRead ts) (hts : ∀ t ∈ ts, t.Worded) : n.Unresolved := by
  intro q hq
  have hread : q.node.AllRead ts := h.inward hq
  refine ⟨hread.here.formed (fun f hf => ?_) hts, fun _ => hread.here.shaped.hops⟩
  have hinner : Inner ⟨[], q.node⟩ ⟨[], .function f⟩ := by
    rw [hf]
    exact .declared
  exact hread.within (.single hinner)

end Node
end Treewalk
