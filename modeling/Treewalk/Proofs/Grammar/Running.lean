import Treewalk.Proofs.Grammar.Reading

/-!
# What parsers accept

`Runs` says that a parser reads given tokens, with given ones behind them, and reports nothing. The
one way out is nesting beyond the limit: it is allowed where `deep` holds, so that `deep` may be
taken as `True` at a fixed limit, and as `False` at one that is high enough.
-/
namespace Treewalk
namespace Parser
open Cursor
variable {α β : Type} {deep : Prop}

/-- A parser gives up for good, where it may. -/
def GivesUp (deep : Prop) (r : EStateM.Result ParseStop Cursor α) : Prop :=
  deep ∧ ∃ c, r = .error .tooDeep c

/-- Having read `u`, a parser goes on as another one. -/
def Leads (deep : Prop) (p : Parser α) (u rest : List Token) (q : Parser α) : Prop :=
  ∀ c : Cursor, c.rest = u ++ rest → c.Sized →
    p c = q { c with rest := rest } ∨ GivesUp deep (p c)

/-- A parser reads `u` and returns `a`. -/
abbrev Runs (deep : Prop) (p : Parser α) (u rest : List Token) (a : α) : Prop :=
  Leads deep p u rest (Pure.pure a)

theorem Cursor.sized_behind {c : Cursor} {u rest : List Token} (h : c.rest = u ++ rest)
    (hc : c.Sized) : Cursor.Sized { c with rest := rest } := by
  unfold Sized at hc ⊢
  have hl : c.rest.length = u.length + rest.length := by rw [h, List.length_append]
  change rest.length ≤ c.total
  omega

theorem Cursor.eq_behind {c : Cursor} {rest : List Token} (h : c.rest = rest) :
    { c with rest := rest } = c := by
  subst h
  rfl

/-- A choice between forms by the kind of the current token; what is read where it has no such
kind. -/
def choose (otherwise : Parser α) : List (TokenKind × (Token → Parser α)) → Parser α
  | [] => otherwise
  | (kind, form) :: forms => Parser.take? kind >>= fun t? =>
      match t? with
      | some t => form t
      | _ => choose otherwise forms

namespace Leads
variable {u v rest : List Token}

theorem refl (p : Parser α) : Leads deep p [] rest p := by
  intro c hc _
  have hc' : c.rest = rest := hc
  exact .inl (by rw [Cursor.eq_behind hc'])

theorem tooDeep {q : Parser α} (h : deep) : Leads deep (Parser.tooDeep : Parser α) u rest q :=
  fun c _ _ => .inr ⟨h, c, rfl⟩

theorem bind {p : Parser α} {f : α → Parser β} {a : α} {q : Parser β}
    (hp : Runs deep p u (v ++ rest) a) (hf : Leads deep (f a) v rest q) :
    Leads deep (p >>= f) (u ++ v) rest q := by
  intro c hc hs
  have hc' : c.rest = u ++ (v ++ rest) := by rw [hc, List.append_assoc]
  change EStateM.bind p f c = _ ∨ GivesUp deep (EStateM.bind p f c)
  unfold EStateM.bind
  rcases hp c hc' hs with h | ⟨hd, c', h⟩
  · rw [h]
    exact hf _ rfl (Cursor.sized_behind hc' hs)
  · rw [h]
    exact .inr ⟨hd, c', rfl⟩

/-- A part that takes no token. -/
theorem look {p : Parser α} {f : α → Parser β} {a : α} {q : Parser β}
    (hp : Runs deep p [] (u ++ rest) a) (hf : Leads deep (f a) u rest q) :
    Leads deep (p >>= f) u rest q := bind hp hf

/-- The part that takes the last token. -/
theorem last {p : Parser α} {f : α → Parser β} {a : α} {q : Parser β}
    (hp : Runs deep p u rest a) (hf : Leads deep (f a) [] rest q) :
    Leads deep (p >>= f) u rest q := by
  rw [← List.append_nil u]
  exact bind hp hf

theorem map {p : Parser α} {f : α → β} {a : α} (hp : Runs deep p u rest a) :
    Runs deep (f <$> p) u rest (f a) := by
  have h : (f <$> p) = p >>= fun a => Pure.pure (f a) := rfl
  rw [h]
  exact last hp (refl _)

theorem take {f : Token → Option β} {t : Token} {b : β} (h : f t = some b) :
    Runs deep (Parser.takeMap? f) [t] rest (some b) := by
  intro c hc _
  refine .inl ?_
  rw [takeMap?_run, hc]
  simp only [List.singleton_append, h]
  rfl

theorem leave {f : Token → Option β} (h : ∀ t more, rest = t :: more → f t = none) :
    Runs deep (Parser.takeMap? f) [] rest none := by
  intro c hc _
  have hc' : c.rest = rest := hc
  rw [takeMap?_run, hc', Cursor.eq_behind hc']
  cases rest with
  | nil => exact .inl rfl
  | cons t more =>
      simp only [h t more rfl]
      exact .inl rfl

theorem takeKind {kind : TokenKind} {t : Token} (h : t.kind = kind) :
    Runs deep (Parser.take? kind) [t] rest (some t) := take (by simp [h])

theorem leaveKind {kind : TokenKind} (h : ∀ t more, rest = t :: more → t.kind ≠ kind) :
    Runs deep (Parser.take? kind) [] rest none :=
  leave fun t more ht => by simp [h t more ht]

theorem expect {kind : TokenKind} (what : Expectation) {t : Token} (h : t.kind = kind) :
    Runs deep (Parser.expect kind what) [t] rest t :=
  bind (takeKind h) (refl _)

theorem check {kind : TokenKind} {b : Bool} {t : Token} {more : List Token}
    (h : rest = t :: more) (hb : decide (t.kind = kind) = b) :
    Runs deep (Parser.check kind) [] rest b := by
  intro c hc _
  have hc' : c.rest = rest := hc
  rw [check_run, hc', Cursor.eq_behind hc', h]
  exact .inl (by rw [← hb]; rfl)

/-- A choice by the current token that is not taken. -/
theorem pass {f : Token → Option β} {k : Option β → Parser α} {q : Parser α}
    (h : ∀ t more, u ++ rest = t :: more → f t = none) (hk : Leads deep (k none) u rest q) :
    Leads deep (Parser.takeMap? f >>= k) u rest q :=
  look (leave h) hk

theorem passKind {kind : TokenKind} {k : Option Token → Parser α} {q : Parser α}
    (h : ∀ t more, u ++ rest = t :: more → t.kind ≠ kind) (hk : Leads deep (k none) u rest q) :
    Leads deep (Parser.take? kind >>= k) u rest q :=
  look (leaveKind h) hk

/-- A choice by the current token that is taken. -/
theorem enter {f : Token → Option β} {k : Option β → Parser α} {q : Parser α} {t : Token} {b : β}
    (h : f t = some b) (hk : Leads deep (k (some b)) u rest q) :
    Leads deep (Parser.takeMap? f >>= k) (t :: u) rest q :=
  bind (take h) hk

theorem enterKind {kind : TokenKind} {k : Option Token → Parser α} {q : Parser α} {t : Token}
    (h : t.kind = kind) (hk : Leads deep (k (some t)) u rest q) :
    Leads deep (Parser.take? kind >>= k) (t :: u) rest q :=
  bind (takeKind h) hk

/-- The form of the current token's kind is read. -/
theorem choose {otherwise : Parser α} {forms : List (TokenKind × (Token → Parser α))}
    {form : Token → Parser α} {q : Parser α} {t : Token}
    (hf : forms.find? (fun f => f.1 = t.kind) = some (t.kind, form))
    (h : Leads deep (form t) u rest q) :
    Leads deep (Parser.choose otherwise forms) (t :: u) rest q := by
  induction forms with
  | nil => cases hf
  | cons f forms ih =>
      obtain ⟨kind, form'⟩ := f
      by_cases hk : kind = t.kind
      · subst hk
        rw [List.find?_cons_of_pos (by exact decide_eq_true rfl)] at hf
        obtain ⟨-, rfl⟩ := Prod.mk.inj (Option.some.inj hf)
        exact enterKind rfl h
      · rw [List.find?_cons_of_neg (by exact mt of_decide_eq_true hk)] at hf
        refine passKind (fun t' more ht => ?_) (ih hf)
        cases ht
        exact Ne.symm hk

/-- The current token begins none of the forms. -/
theorem chooseOther {otherwise : Parser α} {forms : List (TokenKind × (Token → Parser α))}
    {q : Parser α} (hn : ∀ f ∈ forms, ∀ t more, u ++ rest = t :: more → t.kind ≠ f.1)
    (h : Leads deep otherwise u rest q) : Leads deep (Parser.choose otherwise forms) u rest q := by
  induction forms with
  | nil => exact h
  | cons f forms ih =>
      obtain ⟨hf, hforms⟩ := List.forall_mem_cons.mp hn
      exact passKind hf (ih hforms)

/-- A token that must come. -/
theorem must {kind : TokenKind} {what : Expectation} {k : Token → Parser α} {q : Parser α}
    {t : Token} (h : t.kind = kind) (hk : Leads deep (k t) u rest q) :
    Leads deep (Parser.expect kind what >>= k) (t :: u) rest q :=
  bind (expect what h) hk

theorem perToken {loop : Nat → Parser α} {q : Parser α}
    (h : ∀ fuel, u.length < fuel → Leads deep (loop fuel) u rest q) :
    Leads deep (Parser.perToken loop) u rest q := by
  intro c hc hs
  have hl : u.length + rest.length ≤ c.total := by
    unfold Sized at hs
    rw [hc, List.length_append] at hs
    exact hs
  exact h (c.total + 1) (by omega) c hc hs

theorem recovering {p : Parser α} {a : α} (h : Runs deep p u rest a) :
    Runs deep (Parser.recovering p) u rest [a] := by
  intro c hc hs
  unfold Parser.recovering
  rcases h c hc hs with h | ⟨hd, c', h⟩
  · rw [h]
    exact .inl rfl
  · rw [h]
    exact .inr ⟨hd, c', rfl⟩

end Leads

/-- A loop that grows a tree comes to a part of it with fuel for every token left. -/
def Reaches (deep : Prop) (p : Parser α) (loop : Nat → α → Parser α) (u rest : List Token)
    (a : α) : Prop :=
  ∀ c : Cursor, c.rest = u ++ rest → c.Sized →
    (∃ fuel, rest.length < fuel ∧ p c = loop fuel a { c with rest := rest }) ∨
      GivesUp deep (p c)

namespace Reaches
variable {first : Parser α} {p : Parser α} {loop : Nat → α → Parser α} {u v rest : List Token}
  {a b : α}

theorem start (h : Runs deep first u rest a) :
    Reaches deep (first >>= fun a => Parser.perToken fun fuel => loop fuel a) loop u rest a := by
  intro c hc hs
  change (∃ fuel, _ ∧ EStateM.bind first _ c = _) ∨ GivesUp deep (EStateM.bind first _ c)
  unfold EStateM.bind
  rcases h c hc hs with h | ⟨hd, c', h⟩
  · rw [h]
    have hl : rest.length ≤ c.total := Cursor.sized_behind hc hs
    exact .inl ⟨c.total + 1, by omega, rfl⟩
  · rw [h]
    exact .inr ⟨hd, c', rfl⟩

/-- One round, in which the part `a` grows to `b`. -/
theorem round (h : Reaches deep p loop u (v ++ rest) a) (hu : v ≠ [])
    (hl : ∀ fuel, Leads deep (loop (fuel + 1) a) v rest (loop fuel b)) :
    Reaches deep p loop (u ++ v) rest b := by
  -- A round takes a token at least, so that the fuel left stays above the number of tokens left.
  intro c hc hs
  have hc' : c.rest = u ++ (v ++ rest) := by rw [hc, List.append_assoc]
  have hpos := List.length_pos_iff.mpr hu
  rcases h c hc' hs with ⟨fuel, hfuel, heq⟩ | hgive
  · rw [List.length_append] at hfuel
    obtain ⟨fuel, rfl⟩ : ∃ n, fuel = n + 1 := ⟨fuel - 1, by omega⟩
    rw [heq]
    rcases hl fuel _ rfl (Cursor.sized_behind hc' hs) with h | hgive
    · exact .inl ⟨fuel, by omega, h⟩
    · exact .inr hgive
  · exact .inr hgive

/-- Where the loop stops, the part is the whole. -/
theorem stop (h : Reaches deep p loop u rest a)
    (hl : ∀ fuel, Runs deep (loop (fuel + 1) a) [] rest a) : Runs deep p u rest a := by
  intro c hc hs
  rcases h c hc hs with ⟨fuel, hfuel, heq⟩ | hgive
  · obtain ⟨fuel, rfl⟩ : ∃ n, fuel = n + 1 := ⟨fuel - 1, by omega⟩
    rw [heq]
    exact hl fuel _ rfl (Cursor.sized_behind hc hs)
  · exact .inr hgive

end Reaches
end Parser
end Treewalk
