import Treewalk.Tree.Cursor
import Treewalk.Proofs.Watching

/-!
# What parsers read

A parser that stops without a new report has read some tokens, and `Reads` says which tokens and
which result go together, given the tokens left. A parser that unwinds has reported something. The
relation of a sequence follows from those of its parts, so that what a construct reads is computed
from the inside out. Nothing is said about the tokens read when something was reported.
-/
namespace Treewalk

namespace Cursor

/-- A later cursor of the same run. -/
structure Follows (c c' : Cursor) : Prop where
  total : c'.total = c.total
  endLine : c'.endLine = c.endLine
  rest : c'.rest <:+ c.rest
  reports : c.reports.size ≤ c'.reports.size

/-- A cursor with no more tokens left than there were at the start. -/
def Sized (c : Cursor) : Prop := c.rest.length ≤ c.total

theorem Follows.refl (c : Cursor) : Follows c c :=
  ⟨rfl, rfl, List.suffix_refl _, Nat.le_refl _⟩

theorem Follows.trans {c c' c'' : Cursor} (h : Follows c c') (h' : Follows c' c'') :
    Follows c c'' where
  total := h'.total.trans h.total
  endLine := h'.endLine.trans h.endLine
  rest := h'.rest.trans h.rest
  reports := Nat.le_trans h.reports h'.reports

theorem Follows.sized {c c' : Cursor} (h : Follows c c') (hc : c.Sized) : c'.Sized := by
  have hl := h.rest.length_le
  unfold Sized at *
  rw [h.total]
  omega

theorem Follows.advance {c : Cursor} {t : Token} {rest : List Token} (h : c.rest = t :: rest) :
    Follows c { c with rest := rest } :=
  ⟨rfl, rfl, by rw [h]; exact List.suffix_cons t rest, Nat.le_refl _⟩

theorem Follows.report (c : Cursor) (place : Place) (error : StaticError) :
    Follows c (c.report place error) :=
  ⟨rfl, rfl, List.suffix_refl _, by simp [Cursor.report]⟩

theorem size_report (c : Cursor) (place : Place) (error : StaticError) :
    (c.report place error).reports.size = c.reports.size + 1 := by simp [Cursor.report]

theorem skipStatement_suffix (ts : List Token) : skipStatement ts <:+ ts := by
  induction ts with
  | nil => exact List.suffix_refl _
  | cons t ts ih =>
      cases ts with
      | nil => exact List.suffix_cons t []
      | cons next more =>
          rw [skipStatement]
          split
          · exact List.suffix_cons t _
          · exact ih.trans (List.suffix_cons t _)

theorem Follows.synchronize (c : Cursor) : Follows c c.synchronize :=
  ⟨rfl, rfl, skipStatement_suffix c.rest, Nat.le_refl _⟩

end Cursor

namespace Parser
open Cursor
variable {α β : Type}

theorem takeMap?_run (f : Token → Option β) (c : Cursor) :
    takeMap? f c =
      match c.rest with
      | [] => .ok none c
      | t :: rest =>
          match f t with
          | none => .ok none c
          | some b => .ok (some b) { c with rest := rest } := by
  unfold takeMap?
  rw [Watched.get_bind]
  cases c.rest with
  | nil => rfl
  | cons t rest =>
      dsimp only
      cases f t <;> rfl

theorem check_run (kind : TokenKind) (c : Cursor) :
    check kind c =
      match c.rest with
      | [] => .ok false c
      | t :: _ => .ok (decide (t.kind = kind)) c := by
  unfold check
  rw [Watched.get_bind]
  cases c.rest <;> rfl

/-- What follows the first item of a list of items between commas. -/
def otherItems (item : Parser α) (surplus : StaticError) (fuel count : Nat) (first : α) :
    Parser (List α) := do
  match ← take? .comma with
  | none => return [first]
  | some _ =>
      let others ← commaSeparated item surplus fuel count
      return first :: others

theorem commaSeparated_succ (item : Parser α) (surplus : StaticError) (fuel count : Nat) :
    commaSeparated item surplus (fuel + 1) count = (do
      if maxArguments ≤ count then reportHere surplus
      let first ← item
      otherItems item surplus fuel (count + 1) first) := rfl

/-- What is read: the tokens, those left, and the result. -/
abbrev Reading (α : Type) := List Token → List Token → α → Prop

/-- An outcome of a parser that keeps to a reading. -/
def Outcome (c : Cursor) (D : Reading α) : EStateM.Result ParseStop Cursor α → Prop
  | .ok a c' =>
      Follows c c' ∧
        (c'.reports.size = c.reports.size → ∃ ts, c.rest = ts ++ c'.rest ∧ D ts c'.rest a)
  | .error e c' => Follows c c' ∧ (e = .unwind → c.reports.size < c'.reports.size)

/-- All outcomes keep to a reading. -/
def Reads (p : Parser α) (D : Reading α) : Prop := ∀ c : Cursor, c.Sized → Outcome c D (p c)

namespace Reads
variable {D D' : Reading α} {E : Reading β}

theorem mono {p : Parser α} (h : Reads p D) (hD : ∀ ts rest a, D ts rest a → D' ts rest a) :
    Reads p D' := by
  intro c hc
  have hp := h c hc
  unfold Outcome at hp ⊢
  cases hr : p c with
  | ok a c' =>
      rw [hr] at hp
      refine ⟨hp.1, fun hq => ?_⟩
      obtain ⟨ts, hts, hd⟩ := hp.2 hq
      exact ⟨ts, hts, hD _ _ _ hd⟩
  | error e c' =>
      rw [hr] at hp
      exact hp

theorem pure {a : α} (h : ∀ rest, D [] rest a) : Reads (Pure.pure a : Parser α) D := by
  intro c _
  exact ⟨Follows.refl c, fun _ => ⟨[], rfl, h _⟩⟩

/-- The second part of a sequence answers for the whole: it may use what the first part read. -/
theorem bind {p : Parser α} {f : α → Parser β} (hp : Reads p D)
    (hf : ∀ a, Reads (f a) fun ts rest b => ∀ us, D us (ts ++ rest) a → E (us ++ ts) rest b) :
    Reads (p >>= f) E := by
  intro c hc
  have h := hp c hc
  change Outcome c E (EStateM.bind p f c)
  unfold EStateM.bind
  cases hr : p c with
  | error e c' =>
      rw [hr] at h
      exact h
  | ok a c' =>
      rw [hr] at h
      have h' := hf a c' (h.1.sized hc)
      simp only
      cases hr' : f a c' with
      | error e c'' =>
          rw [hr'] at h'
          have hs := h.1.reports
          exact ⟨h.1.trans h'.1, fun he => Nat.lt_of_le_of_lt hs (h'.2 he)⟩
      | ok b c'' =>
          rw [hr'] at h'
          refine ⟨h.1.trans h'.1, fun hq => ?_⟩
          have hs := h.1.reports
          have hs' := h'.1.reports
          obtain ⟨us, hus, hd⟩ := h.2 (by omega)
          obtain ⟨ts, hts, he⟩ := h'.2 (by omega)
          refine ⟨us ++ ts, by rw [hus, hts, List.append_assoc], he us ?_⟩
          rw [← hts]
          exact hd

theorem map {p : Parser α} {f : α → β} (hp : Reads p fun ts rest a => E ts rest (f a)) :
    Reads (f <$> p) E := by
  have h : (f <$> p) = p >>= fun a => Pure.pure (f a) := rfl
  rw [h]
  refine bind hp fun a => pure fun rest us hd => ?_
  simpa using hd

theorem throw_tooDeep : Reads (tooDeep : Parser α) D := by
  intro c _
  exact ⟨Follows.refl c, fun h => by cases h⟩

theorem reportAt (place : Place) (error : StaticError) :
    Reads (reportAt place error) fun _ _ _ => False := by
  intro c _
  refine ⟨Follows.report c place error, fun h => ?_⟩
  have hs : (c.report place error).reports.size = c.reports.size := h
  rw [size_report] at hs
  omega

theorem reportHere (error : StaticError) :
    Reads (reportHere error) fun _ _ _ => False := by
  intro c hc
  exact reportAt c.place error c hc

theorem fail (what : Expectation) : Reads (fail what : Parser α) D := by
  intro c _
  refine ⟨Follows.report c c.place _, fun _ => ?_⟩
  change c.reports.size < (c.report c.place (.expected what)).reports.size
  rw [size_report]
  omega

/-- Reading the current token, or nothing if it is of no use. -/
theorem takeMap? (f : Token → Option β) :
    Reads (takeMap? f) fun ts rest o =>
      match o with
      | some b => ∃ t, ts = [t] ∧ f t = some b
      | none => ts = [] ∧ ∀ t more, rest = t :: more → f t = none := by
  intro c _
  rw [takeMap?_run]
  cases hr : c.rest with
  | nil =>
      exact ⟨Follows.refl c, fun _ => ⟨[], rfl, rfl, fun t more h => by rw [hr] at h; cases h⟩⟩
  | cons t rest =>
      simp only
      cases hf : f t with
      | none =>
          refine ⟨Follows.refl c, fun _ => ⟨[], rfl, rfl, fun t' more h => ?_⟩⟩
          rw [hr] at h
          cases h
          exact hf
      | some b => exact ⟨Follows.advance hr, fun _ => ⟨[t], hr, t, rfl, hf⟩⟩

theorem take? (kind : TokenKind) :
    Reads (take? kind) fun ts rest o =>
      match o with
      | some t => ts = [t] ∧ t.kind = kind
      | none => ts = [] ∧ ∀ t more, rest = t :: more → t.kind ≠ kind := by
  refine mono (takeMap? _) fun ts rest o h => ?_
  cases o with
  | none =>
      refine ⟨h.1, fun t more ht he => ?_⟩
      have := h.2 t more ht
      simp [he] at this
  | some t =>
      obtain ⟨t', hts, ht⟩ := h
      split at ht
      · next hk =>
          cases ht
          exact ⟨hts, hk⟩
      · cases ht

theorem expect (kind : TokenKind) (what : Expectation) :
    Reads (expect kind what) fun ts _ t => ts = [t] ∧ t.kind = kind := by
  unfold Parser.expect
  refine bind (take? kind) fun o => ?_
  cases o with
  | none => exact fail what
  | some t =>
      refine pure fun rest us h => ?_
      simpa using h

theorem check (kind : TokenKind) :
    Reads (check kind) fun ts rest b => ts = [] ∧ (b = true → ∃ t more, rest = t :: more ∧
      t.kind = kind) := by
  intro c _
  rw [check_run]
  cases hr : c.rest with
  | nil => exact ⟨Follows.refl c, fun _ => ⟨[], rfl, rfl, fun h => by cases h⟩⟩
  | cons t rest =>
      exact ⟨Follows.refl c, fun _ => ⟨[], rfl, rfl, fun h => ⟨t, rest, hr, of_decide_eq_true h⟩⟩⟩

/-- A choice by the current token. -/
theorem fork {f : Token → Option β} {k : Option β → Parser α}
    (hsome : ∀ t b, f t = some b → Reads (k (some b)) fun ts rest a => D (t :: ts) rest a)
    (hnone : Reads (k none) D) : Reads (Parser.takeMap? f >>= k) D := by
  intro c hc
  change Outcome c D (EStateM.bind (Parser.takeMap? f) k c)
  unfold EStateM.bind
  rw [takeMap?_run]
  cases hr : c.rest with
  | nil => exact hnone c hc
  | cons t rest =>
      simp only
      cases hf : f t with
      | none => exact hnone c hc
      | some b =>
          have hstep := Follows.advance hr
          have h := hsome t b hf _ (hstep.sized hc)
          simp only
          cases hk : k (some b) { c with rest := rest } with
          | error e c' =>
              rw [hk] at h
              exact ⟨hstep.trans h.1, h.2⟩
          | ok a c' =>
              rw [hk] at h
              refine ⟨hstep.trans h.1, fun hq => ?_⟩
              obtain ⟨ts, hts, hd⟩ := h.2 hq
              exact ⟨t :: ts, by rw [hr]; exact congrArg (t :: ·) hts, hd⟩

/-- A choice by the kind of the current token. -/
theorem forkKind {kind : TokenKind} {k : Option Token → Parser α}
    (hsome : ∀ t : Token, t.kind = kind → Reads (k (some t)) fun ts rest a => D (t :: ts) rest a)
    (hnone : Reads (k none) D) : Reads (Parser.take? kind >>= k) D := by
  refine fork (fun t t' ht => ?_) hnone
  split at ht
  · next hk =>
      cases ht
      exact hsome t hk
  · cases ht

/-- A loop with more fuel than tokens. -/
theorem perToken {loop : Nat → Parser α}
    (h : ∀ fuel, Reads (loop fuel) fun ts rest a => (ts ++ rest).length < fuel → D ts rest a) :
    Reads (perToken loop) D := by
  intro c hc
  have hl := h (c.total + 1) c hc
  change Outcome c D (loop (c.total + 1) c)
  cases hr : loop (c.total + 1) c with
  | error e c' =>
      rw [hr] at hl
      exact hl
  | ok a c' =>
      rw [hr] at hl
      refine ⟨hl.1, fun hq => ?_⟩
      obtain ⟨ts, hts, hd⟩ := hl.2 hq
      refine ⟨ts, hts, hd ?_⟩
      unfold Sized at hc
      rw [← hts]
      omega

/-- Whatever is recovered from was reported. -/
theorem recovering {p : Parser α} {D : Reading (List α)}
    (h : Reads p fun ts rest a => D ts rest [a]) : Reads (recovering p) D := by
  intro c hc
  have hp := h c hc
  unfold Parser.recovering
  cases hr : p c with
  | ok a c' =>
      rw [hr] at hp
      exact hp
  | error e c' =>
      rw [hr] at hp
      cases e with
      | tooDeep => exact ⟨hp.1, fun he => by cases he⟩
      | unwind =>
          refine ⟨hp.1.trans (Follows.synchronize c'), fun hq => ?_⟩
          have hlt := hp.2 rfl
          have hs : c'.reports.size = c.reports.size := hq
          omega

end Reads
end Parser
end Treewalk
