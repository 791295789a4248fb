import Treewalk.Proofs.Grammar.Completeness
import Treewalk.Proofs.Twins.Moved

/-!
# Reading the same tokens elsewhere

What a parser reads without a report it reads likewise from the same tokens some lines further down,
with more behind them, and in so many levels: it sees no more than the token behind what it reads.
Where the tokens end there is no such token, so that what has no token of its own to close it must
not reach to the end; an `if` may, if no `else` comes there.
-/
namespace Treewalk

/-- The operators of a tier are the same further down. -/
theorem Tier.join?_down (n : Nat) (tier : Tier) (t : Token) :
    (tier.join? t = none → tier.join? (t.down n) = none) ∧
    ∀ join, tier.join? t = some join → ∃ join', tier.join? (t.down n) = some join' ∧
      ∀ l r, (join l r).down n = join' (l.down n) (r.down n) := by
  unfold Tier.join?
  rw [Token.kind_down]
  cases tier.binaryOp? t.kind with
  | some op =>
      refine ⟨fun h => (Option.some_ne_none _ h).elim, fun join hjoin => ⟨_, rfl, fun l r => ?_⟩⟩
      obtain rfl := Option.some.inj hjoin
      rw [Expr.down]
  | none =>
      cases tier.logicalOp? t.kind with
      | some op =>
          refine ⟨fun h => (Option.some_ne_none _ h).elim, fun join hjoin => ⟨_, rfl, fun l r => ?_⟩⟩
          obtain rfl := Option.some.inj hjoin
          rw [Expr.down]
      | none => exact ⟨fun _ => rfl, fun join hjoin => (Option.some_ne_none _ hjoin.symm).elim⟩

/-- A declaration has two tokens at least. -/
theorem Derives.two_le_length {ts : List Token} :
    (∀ {dangling : Bool} {s : Stmt}, Derives (.statement dangling s) ts → 2 ≤ ts.length) ∧
    ∀ {s : Stmt}, Derives (.declaration s) ts → 2 ≤ ts.length := by
  have hstatement : ∀ {dangling : Bool} {s : Stmt}, Derives (.statement dangling s) ts →
      2 ≤ ts.length := by
    intro dangling s h
    cases h with
    | expressionStatement he _ =>
        have hpos := List.length_pos_iff.mpr he.opening.ne_nil
        simp only [List.length_append, List.length_singleton]
        omega
    | _ => simp
  refine ⟨hstatement, fun h => ?_⟩
  cases h with
  | declarationStatement h => exact hstatement h
  | declarationVariable h => cases h <;> simp
  | _ => simp

namespace Parser
variable {α β γ : Type}

/-- The same tokens some lines further down, with more behind them, are read as `b`. -/
abbrev Again (n : Nat) (more : List Token) (q : Parser β) (ts rest : List Token) (b : β) : Prop :=
  Runs False q (ts.map (Token.down n)) (rest.map (Token.down n) ++ more) b

/-- The first of some tokens further down. -/
theorem front_down {P : Token → Prop} {n : Nat} {more ts : List Token}
    (hd : ∀ t, P t → P (t.down n)) (h : ∀ t us, ts = t :: us → P t)
    (hend : ts = [] → ∀ t us, more = t :: us → P t) (t : Token) (us : List Token)
    (ht : ts.map (Token.down n) ++ more = t :: us) : P t := by
  cases ts with
  | nil => exact hend rfl t us ht
  | cons t' us' =>
      cases ht
      exact hd _ (h t' us' rfl)

namespace Again
variable {n : Nat} {more us ts rest : List Token} {a : α} {b : β}

theorem pure {a b : α} (h : a = b) : Again n more (Pure.pure a) [] rest b := h ▸ .refl _

theorem bind {p : Parser α} {f : α → Parser β} (hp : Again n more p us (ts ++ rest) a)
    (hf : Again n more (f a) ts rest b) : Again n more (p >>= f) (us ++ ts) rest b := by
  unfold Again at *
  rw [List.map_append]
  rw [List.map_append, List.append_assoc] at hp
  exact Leads.bind hp hf

/-- The part that takes the last token. -/
theorem last {p : Parser α} {f : α → Parser β} (hp : Again n more p us rest a)
    (hf : Again n more (f a) [] rest b) : Again n more (p >>= f) us rest b := Leads.last hp hf

theorem map {p : Parser α} {f : α → β} (h : Again n more p ts rest a) (hb : f a = b) :
    Again n more (f <$> p) ts rest b := hb ▸ Leads.map h

theorem expect {kind : TokenKind} {what : Expectation} {t : Token} (h : t.kind = kind) :
    Again n more (Parser.expect kind what) [t] rest (t.down n) := Leads.expect what h

/-- A token that must come. -/
theorem must {kind : TokenKind} {what : Expectation} {k : Token → Parser β} {t : Token}
    (h : t.kind = kind) (hk : Again n more (k (t.down n)) ts rest b) :
    Again n more (Parser.expect kind what >>= k) ([t] ++ ts) rest b := Leads.must h hk

theorem enter {f : Token → Option α} {k : Option α → Parser β} {t : Token}
    (h : f (t.down n) = some a) (hk : Again n more (k (some a)) ts rest b) :
    Again n more (Parser.takeMap? f >>= k) ([t] ++ ts) rest b := Leads.enter h hk

theorem enterKind {kind : TokenKind} {k : Option Token → Parser β} {t : Token}
    (h : t.kind = kind) (hk : Again n more (k (some (t.down n))) ts rest b) :
    Again n more (Parser.take? kind >>= k) ([t] ++ ts) rest b := Leads.enterKind h hk

theorem pass {f : Token → Option α} {k : Option α → Parser β}
    (hd : ∀ t, f t = none → f (t.down n) = none)
    (h : ∀ t us, ts ++ rest = t :: us → f t = none)
    (hend : ts ++ rest = [] → ∀ t us, more = t :: us → f t = none)
    (hk : Again n more (k none) ts rest b) :
    Again n more (Parser.takeMap? f >>= k) ts rest b := by
  refine Leads.pass ?_ hk
  rw [← List.append_assoc, ← List.map_append]
  exact front_down hd h hend

theorem passKind {kind : TokenKind} {k : Option Token → Parser β}
    (h : ∀ t us, ts ++ rest = t :: us → t.kind ≠ kind)
    (hend : ts ++ rest = [] → ∀ t us, more = t :: us → t.kind ≠ kind)
    (hk : Again n more (k none) ts rest b) :
    Again n more (Parser.take? kind >>= k) ts rest b := by
  refine Leads.passKind ?_ hk
  rw [← List.append_assoc, ← List.map_append]
  exact front_down (fun _ ht => ht) h hend

theorem check {kind : TokenKind} {k : Bool → Parser β} {closes : Bool}
    (h : ∀ t us, ts ++ rest = t :: us → closes = decide (t.kind = kind))
    (hne : ts ++ rest ≠ []) (hk : Again n more (k closes) ts rest b) :
    Again n more (Parser.check kind >>= k) ([] ++ ts) rest b := by
  obtain ⟨t, us, ht⟩ := List.exists_cons_of_ne_nil hne
  rw [List.nil_append]
  have hnext : ts.map (Token.down n) ++ (rest.map (Token.down n) ++ more) =
      t.down n :: (us.map (Token.down n) ++ more) := by
    rw [← List.append_assoc, ← List.map_append, ht]
    rfl
  exact Leads.look (.check hnext (h t us ht).symm) hk

/-- A round of a list of items between commas. -/
theorem commaRound {item : Parser α} {surplus : StaticError} {fuel count : Nat} {as : List α}
    (hitem : Again n more item us (ts ++ rest) a) (hcount : count + 1 ≤ maxArguments)
    (hmore : Again n more (otherItems item surplus fuel (count + 1) a) ts rest as) :
    Again n more (commaSeparated item surplus (fuel + 1) count) (us ++ ts) rest as := by
  unfold Again at *
  rw [List.map_append]
  rw [List.map_append, List.append_assoc] at hitem
  exact Accepts.commaRound hitem hcount hmore

/-- A round of a list of items up to a brace. -/
theorem braceRound {item : Parser (List α)} {fuel : Nat} {as bs : List α}
    (hn : ∃ t more, us = t :: more ∧ t.kind ≠ .rightBrace)
    (hitem : Again n more item us (ts ++ rest) as)
    (hmore : Again n more (untilBrace item fuel) ts rest bs) :
    Again n more (untilBrace item (fuel + 1)) (us ++ ts) rest (as ++ bs) := by
  obtain ⟨t, vs, rfl, hk⟩ := hn
  unfold Again at *
  rw [List.map_append]
  rw [List.map_append, List.append_assoc] at hitem
  exact Accepts.braceRound ⟨t.down n, _, rfl, hk⟩ hitem hmore

theorem perToken {loop : Nat → Parser β}
    (h : ∀ fuel, ts.length < fuel → Again n more (loop fuel) ts rest b) :
    Again n more (Parser.perToken loop) ts rest b :=
  Leads.perToken fun fuel hfuel => h fuel (by rwa [List.length_map] at hfuel)

end Again

/-- The current token is known. -/
theorem Outcome.front {P : Token → Prop} {D : Reading α} {c : Cursor}
    {r : EStateM.Result ParseStop Cursor α}
    (h : Outcome c (fun ts rest a => (∀ t us, ts ++ rest = t :: us → P t) → D ts rest a) r)
    (hc : ∀ t us, c.rest = t :: us → P t) : Outcome c D r := by
  cases r with
  | error e d => exact h
  | ok a d =>
      refine ⟨h.1, fun hq => ?_⟩
      obtain ⟨ts, hts, hd⟩ := h.2 hq
      exact ⟨ts, hts, hd (hts ▸ hc)⟩

namespace Reads
variable {n : Nat} {more : List Token}

theorem and {p : Parser α} {D D' : Reading α} (h : Reads p D) (h' : Reads p D') :
    Reads p fun ts rest a => D ts rest a ∧ D' ts rest a := by
  intro c hc
  have hout := h c hc
  have hout' := h' c hc
  cases hr : p c with
  | error e d =>
      rw [hr] at hout
      exact hout
  | ok a d =>
      rw [hr] at hout hout'
      refine ⟨hout.1, fun hq => ?_⟩
      obtain ⟨ts, hts, hd⟩ := hout.2 hq
      obtain ⟨us, hus, hd'⟩ := hout'.2 hq
      obtain rfl : ts = us := List.append_cancel_right (hts.symm.trans hus)
      exact ⟨ts, hts, hd, hd'⟩

theorem look (kind : TokenKind) : Reads (Parser.check kind) fun ts rest closes =>
    ts = [] ∧ ∀ t us, rest = t :: us → closes = decide (t.kind = kind) := by
  intro c _
  rw [check_run]
  cases hr : c.rest with
  | nil => exact ⟨.refl c, fun _ => ⟨[], rfl, rfl, fun t us h => by rw [hr] at h; cases h⟩⟩
  | cons t rest =>
      refine ⟨.refl c, fun _ => ⟨[], rfl, rfl, fun t' us h => ?_⟩⟩
      rw [hr] at h
      cases h
      rfl

/-- What `p` reads is read by `q` elsewhere, where it does not reach to the end. -/
abbrev Elsewhere (n : Nat) (more : List Token) (q : Parser β) (f : α → β) : Reading α :=
  fun ts rest a => rest ≠ [] → Again n more q ts rest (f a)

/-- A choice by the current token, where there must be one. -/
theorem forkAgain {P : List Token → List Token → Prop} (hP : ∀ ts rest, P ts rest → ts ++ rest ≠ [])
    {f : Token → Option β} {m : β → β} {k : Option β → Parser α} {k' : Option β → Parser γ}
    {g : α → γ} (hf : ∀ t : Token, f (t.down n) = (f t).map m)
    (hsome : ∀ b, Reads (k (some b)) fun ts rest a =>
      ∀ t, P ([t] ++ ts) rest → Again n more (k' (some (m b))) ts rest (g a))
    (hnone : Reads (k none) fun ts rest a => P ts rest → Again n more (k' none) ts rest (g a)) :
    Reads (Parser.takeMap? f >>= k) fun ts rest a =>
      P ts rest → Again n more (Parser.takeMap? f >>= k') ts rest (g a) := by
  refine bind (takeMap? f) fun o => ?_
  cases o with
  | none =>
      refine mono hnone fun ts rest a h us hus hp => ?_
      obtain ⟨rfl, hfront⟩ := hus
      refine .pass (fun t ht => ?_) hfront (fun hnil => absurd hnil (hP _ _ hp)) (h hp)
      rw [hf, ht]
      rfl
  | some b =>
      refine mono (hsome b) fun ts rest a h us hus hp => ?_
      obtain ⟨t, rfl, ht⟩ := hus
      exact .enter (a := m b) (by rw [hf, ht]; rfl) (h t hp)

theorem forkKindAgain {P : List Token → List Token → Prop}
    (hP : ∀ ts rest, P ts rest → ts ++ rest ≠ []) {kind : TokenKind}
    {k : Option Token → Parser α} {k' : Option Token → Parser γ} {g : α → γ}
    (hsome : ∀ t, Reads (k (some t)) fun ts rest a =>
      ∀ t', P ([t'] ++ ts) rest → Again n more (k' (some (t.down n))) ts rest (g a))
    (hnone : Reads (k none) fun ts rest a => P ts rest → Again n more (k' none) ts rest (g a)) :
    Reads (Parser.take? kind >>= k) fun ts rest a =>
      P ts rest → Again n more (Parser.take? kind >>= k') ts rest (g a) := by
  refine forkAgain hP (m := Token.down n) (fun t => ?_) hsome hnone
  rw [Token.kind_down]
  split <;> rfl

/-- There is a token if there is one behind. -/
theorem some_behind (ts rest : List Token) (h : rest ≠ []) : ts ++ rest ≠ [] := by simp [h]

/-! ### Loops -/

theorem perTokenAgain {loop : Nat → Parser α} {loop' : Nat → Parser β} {f : α → β}
    (h : ∀ fuel, Reads (loop fuel) fun ts rest a => (ts ++ rest).length < fuel → rest ≠ [] →
      ∀ fuel', ts.length < fuel' → Again n more (loop' fuel') ts rest (f a)) :
    Reads (Parser.perToken loop) (Elsewhere n more (Parser.perToken loop') f) :=
  mono (perToken h) fun _ _ _ h hrest => .perToken (h hrest)

/-- Items between commas; there is fuel for as many tokens. -/
theorem commaAgain {item : Parser α} {f : α → α}
    (hi : Reads item fun ts rest a => ts ≠ [] ∧ Elsewhere n more item f ts rest a)
    (surplus : StaticError) (fuel count : Nat) :
    Reads (Parser.commaSeparated item surplus fuel count) fun ts rest as =>
      (ts ++ rest).length < fuel → rest ≠ [] → ∀ fuel', ts.length < fuel' →
        Again n more (Parser.commaSeparated item surplus fuel' count) ts rest (as.map f) := by
  induction fuel generalizing count with
  | zero => exact pure fun rest h => by simp at h
  | succ fuel ih =>
      have hbody : Reads (item >>= otherItems item surplus fuel (count + 1))
          fun ts rest as => ¬maxArguments ≤ count → (ts ++ rest).length < fuel + 1 → rest ≠ [] →
            ∀ fuel', ts.length < fuel' →
              Again n more (Parser.commaSeparated item surplus fuel' count) ts rest (as.map f) := by
        refine bind hi fun a => bind (take? .comma) fun o => ?_
        cases o with
        | none =>
            refine pure fun rest us ⟨hnil, hfront⟩ ts ⟨_, ha⟩ hcount _ hrest fuel' hfuel' => ?_
            subst hnil
            obtain ⟨fuel', rfl⟩ : ∃ n, fuel' = n + 1 := ⟨fuel' - 1, by omega⟩
            exact .commaRound (ha hrest) (by omega)
              (.passKind hfront (fun h => absurd h hrest) (.pure rfl))
        | some comma =>
            refine bind (ih (count + 1)) fun as => pure ?_
            rintro rest us hb vs ⟨rfl, hk⟩ ts ⟨hts, ha⟩ hcount hl hrest fuel' hfuel'
            obtain ⟨fuel', rfl⟩ : ∃ n, fuel' = n + 1 := ⟨fuel' - 1, by omega⟩
            simp only [List.append_nil, List.nil_append, List.cons_append, List.length_append,
              List.length_cons] at ha hb hl hfuel' ⊢
            exact .commaRound (ha (List.cons_ne_nil _ _)) (by omega)
              (.enterKind hk (.last (hb (by omega) hrest fuel' (by omega)) (.pure rfl)))
      rw [commaSeparated_succ]
      by_cases h : maxArguments ≤ count
      · simp only [h, if_true]
        exact bind (reportHere surplus) fun _ => mono hbody fun _ _ _ _ us hf => hf.elim
      · simp only [h, if_false]
        exact mono hbody fun _ _ _ hd => hd h

/-- Items up to a brace. -/
theorem braceAgain {item : Parser (List α)} {f : α → α}
    (hi : Reads item fun ts rest as => ts ≠ [] ∧
      Elsewhere n more item (fun as => as.map f) ts rest as) (fuel : Nat) :
    Reads (Parser.untilBrace item fuel) fun ts rest as => (ts ++ rest).length < fuel → rest ≠ [] →
      ∀ fuel', ts.length < fuel' → Again n more (Parser.untilBrace item fuel') ts rest (as.map f) := by
  induction fuel with
  | zero => exact pure fun rest h => by simp at h
  | succ fuel ih =>
      intro c hc
      rw [Parser.untilBrace]
      rw [Watched.get_bind]
      cases hr : c.rest with
      | nil =>
          exact ⟨.refl c, fun _ => ⟨[], rfl, fun _ hrest => absurd hr hrest⟩⟩
      | cons t rest =>
          simp only
          split
          · next hk =>
              refine ⟨.refl c, fun _ => ⟨[], rfl, fun _ _ fuel' hfuel' => ?_⟩⟩
              obtain ⟨fuel', rfl⟩ : ∃ n, fuel' = n + 1 := ⟨fuel' - 1, by omega⟩
              rw [hr]
              have hlast : (t.down n).kind = .rightBrace := hk
              exact Accepts.braceEnd hlast _
          · next hk =>
              have hb : Reads (item >>= fun first => Parser.untilBrace item fuel >>= fun others =>
                  Pure.pure (first ++ others)) fun ts rest as =>
                    (∀ t us, ts ++ rest = t :: us → t.kind ≠ .rightBrace) →
                    (ts ++ rest).length < fuel + 1 → rest ≠ [] → ∀ fuel', ts.length < fuel' →
                      Again n more (Parser.untilBrace item fuel') ts rest (as.map f) := by
                refine bind hi fun first => bind ih fun others => pure ?_
                rintro rest us hothers ts ⟨hts, hfirst⟩ hfront hl hrest fuel' hfuel'
                obtain ⟨t, vs, rfl⟩ := List.exists_cons_of_ne_nil hts
                obtain ⟨fuel', rfl⟩ : ∃ n, fuel' = n + 1 := ⟨fuel' - 1, by omega⟩
                simp only [List.append_nil, List.nil_append, List.length_append, List.length_cons,
                  List.cons_append] at hfirst hothers hl hfuel' ⊢
                rw [List.map_append]
                exact .braceRound ⟨t, vs, rfl, hfront _ _ rfl⟩ (hfirst (by simp [hrest]))
                  (hothers (by omega) hrest fuel' (by omega))
              exact (hb c hc).front fun t' us h => by
                rw [hr] at h
                cases h
                exact hk

/-- Operators and operands of one strength; the tree grows to the left. -/
theorem leftwardAgain {operator : Token → Option (Expr → Expr → Expr)} {operand : Parser Expr}
    (hn : ∀ t, operator t = none → operator (t.down n) = none)
    (hs : ∀ t join, operator t = some join → ∃ join', operator (t.down n) = some join' ∧
      ∀ l r, (join l r).down n = join' (l.down n) (r.down n))
    (hp : Reads operand (Elsewhere n more operand (Expr.down n))) (fuel : Nat) (left : Expr) :
    Reads (Parser.leftward operator operand fuel left) fun ts rest e =>
      (ts ++ rest).length < fuel → rest ≠ [] → ∀ fuel', ts.length < fuel' →
        Again n more (Parser.leftward operator operand fuel' (left.down n)) ts rest (e.down n) := by
  induction fuel generalizing left with
  | zero => exact pure fun rest h => by simp at h
  | succ fuel ih =>
      rw [Parser.leftward]
      refine bind (takeMap? operator) fun o => ?_
      cases o with
      | none =>
          refine pure fun rest us ⟨hnil, hfront⟩ _ hrest fuel' hfuel' => ?_
          subst hnil
          obtain ⟨fuel', rfl⟩ : ∃ n, fuel' = n + 1 := ⟨fuel' - 1, by omega⟩
          exact .pass hn hfront (fun h => absurd h hrest) (.pure rfl)
      | some join =>
          refine bind hp fun right => mono (ih (join left right)) ?_
          rintro ts rest e he us hr vs ⟨t, rfl, ht⟩ hl hrest fuel' hfuel'
          obtain ⟨fuel', rfl⟩ : ∃ n, fuel' = n + 1 := ⟨fuel' - 1, by omega⟩
          obtain ⟨join', hjoin, hdown⟩ := hs t join ht
          simp only [List.nil_append, List.cons_append, List.length_append,
            List.length_cons] at hl hfuel' ⊢
          have hothers := he (by simp only [List.length_append]; omega) hrest fuel' (by omega)
          rw [hdown] at hothers
          exact .enter hjoin (.bind (hr (by simp [hrest])) hothers)

/-- Calls and property reads behind an expression. -/
theorem callAgain {expression : Parser Expr}
    (he : Reads expression fun ts rest e =>
      ts ≠ [] ∧ Elsewhere n more expression (Expr.down n) ts rest e) (fuel : Nat) (callee : Expr) :
    Reads (Parser.callRest expression fuel callee) fun ts rest e =>
      (ts ++ rest).length < fuel → rest ≠ [] → ∀ fuel', ts.length < fuel' →
        Again n more (Parser.callRest expression fuel' (callee.down n)) ts rest (e.down n) := by
  induction fuel generalizing callee with
  | zero => exact pure fun rest h => by simp at h
  | succ fuel ih =>
      rw [Parser.callRest]
      refine bind (take? .leftParen) fun o => ?_
      cases o with
      | none =>
          refine bind (take? .dot) fun o => ?_
          cases o with
          | none =>
              refine pure fun rest us ⟨hnil, hdot⟩ vs ⟨hnil', hparen⟩ _ hrest fuel' hfuel' => ?_
              subst hnil hnil'
              obtain ⟨fuel', rfl⟩ : ∃ n, fuel' = n + 1 := ⟨fuel' - 1, by omega⟩
              exact .passKind hparen (fun h => absurd h hrest)
                (.passKind hdot (fun h => absurd h hrest) (.pure rfl))
          | some dot =>
              refine bind (expect .identifier .propertyName) fun name => ?_
              refine mono (ih (.get callee name)) ?_
              rintro ts rest e he' us ⟨rfl, hn⟩ vs ⟨rfl, hd⟩ ws ⟨rfl, hparen⟩ hl hrest fuel' hfuel'
              obtain ⟨fuel', rfl⟩ : ∃ n, fuel' = n + 1 := ⟨fuel' - 1, by omega⟩
              simp only [List.nil_append, List.cons_append, List.length_append,
                List.length_cons] at hparen hl hfuel' ⊢
              have hothers := he' (by simp only [List.length_append]; omega) hrest fuel' (by omega)
              rw [Expr.down] at hothers
              exact .passKind hparen (fun h => absurd h (List.cons_ne_nil _ _))
                (.enterKind hd (.must hn hothers))
      | some start =>
          have hgoes : ∀ (es : List Expr), Reads (Parser.expect .rightParen .argumentsEnd >>=
              fun paren => Parser.callRest expression fuel (.call callee paren es)) fun ts rest e =>
                (ts ++ rest).length < fuel + 1 → rest ≠ [] → ∀ fuel', ts.length < fuel' + 1 →
                  Again n more (Parser.expect .rightParen .argumentsEnd >>= fun paren =>
                    Parser.callRest expression fuel'
                      (.call (callee.down n) paren (es.map (Expr.down n)))) ts rest (e.down n) := by
            intro es
            refine bind (expect .rightParen .argumentsEnd) fun paren => ?_
            refine mono (ih (.call callee paren es)) ?_
            rintro ts rest e he' us ⟨rfl, hp⟩ hl hrest fuel' hfuel'
            simp only [List.nil_append, List.cons_append, List.length_append,
              List.length_cons] at hl hfuel' ⊢
            have hothers := he' (by simp only [List.length_append]; omega) hrest fuel' (by omega)
            rw [Expr.down, downExprs_eq] at hothers
            exact .must hp hothers
          refine bind (look .rightParen) fun closes => ?_
          cases closes with
          | true =>
              refine bind (D := fun ts _ es => ts = [] ∧ es = []) (pure fun _ => ⟨rfl, rfl⟩)
                fun es => mono (hgoes es) ?_
              rintro ts rest e he' us ⟨rfl, rfl⟩ vs ⟨rfl, hcheck⟩ ws ⟨rfl, hst⟩ hl hrest fuel' hfuel'
              obtain ⟨fuel', rfl⟩ : ∃ n, fuel' = n + 1 := ⟨fuel' - 1, by omega⟩
              simp only [List.nil_append, List.cons_append, List.length_append,
                List.length_cons] at hcheck hl hfuel' ⊢
              refine .enterKind hst (.check hcheck (by simp [hrest]) ?_)
              exact he' (by simp only [List.length_append]; omega) hrest fuel' (by omega)
          | false =>
              have hargs := perTokenAgain fun fuel => commaAgain he .tooManyArguments fuel 0
              refine bind hargs fun es => mono (hgoes es) ?_
              rintro ts rest e he' us hes vs ⟨rfl, hcheck⟩ ws ⟨rfl, hst⟩ hl hrest fuel' hfuel'
              obtain ⟨fuel', rfl⟩ : ∃ n, fuel' = n + 1 := ⟨fuel' - 1, by omega⟩
              simp only [List.nil_append, List.cons_append, List.length_append,
                List.length_cons] at hcheck hl hfuel' ⊢
              refine .enterKind hst (.check hcheck (by simp [hrest]) ?_)
              refine .bind (hes (by simp [hrest])) ?_
              exact he' (by simp only [List.length_append]; omega) hrest fuel' (by omega)

/-! ### Functions and classes -/

/-- A body is closed by its brace. -/
abbrev BlockAgain (n : Nat) (more : List Token) (block : Parser (List Stmt)) :
    Reading (List Stmt) :=
  fun ts rest body => Again n more block ts rest (body.map (Stmt.down n))

theorem functionAgain {block : Parser (List Stmt)} (hb : Reads block (BlockAgain n more block))
    (label : FunctionLabel) (name : Option Token) :
    Reads (Parser.functionRest block label name) fun ts rest f =>
      Again n more (Parser.functionRest block label (name.map (Token.down n))) ts rest
        (f.down n) := by
  have hgoes : ∀ ps : List Token, Reads (Parser.expect .rightParen .parametersEnd >>= fun _ =>
      Parser.expect .leftBrace (.functionBodyStart label) >>= fun _ => block >>= fun body =>
        Pure.pure (FunctionDecl.mk name ps body)) fun ts rest f => ts ++ rest ≠ [] ∧
          Again n more (Parser.expect .rightParen .parametersEnd >>= fun _ =>
            Parser.expect .leftBrace (.functionBodyStart label) >>= fun _ => block >>= fun body =>
              Pure.pure (FunctionDecl.mk (name.map (Token.down n)) (ps.map (Token.down n)) body))
            ts rest (f.down n) := by
    intro ps
    refine bind (expect .rightParen _) fun close => bind (expect .leftBrace _) fun brace =>
      bind hb fun body => pure ?_
    rintro rest us hbody vs ⟨rfl, hbr⟩ ws ⟨rfl, hcl⟩
    refine ⟨by simp, .must hcl (.must hbr (.bind hbody (.pure ?_)))⟩
    rw [FunctionDecl.down, downStmts_eq]
  unfold Parser.functionRest
  refine bind (expect .leftParen _) fun start => bind (look .rightParen) fun closes => ?_
  cases closes with
  | true =>
      refine bind (D := fun ts _ ps => ts = [] ∧ ps = []) (pure fun _ => ⟨rfl, rfl⟩)
        fun ps => mono (hgoes ps) ?_
      rintro ts rest f ⟨hne, hf⟩ us ⟨rfl, rfl⟩ vs ⟨rfl, hcheck⟩ ws ⟨rfl, hst⟩
      exact .must hst (.check hcheck hne hf)
  | false =>
      have hname : Reads (Parser.expect .identifier .parameterName) fun ts rest t => ts ≠ [] ∧
          Elsewhere n more (Parser.expect .identifier .parameterName) (Token.down n) ts rest t :=
        mono (expect _ _) fun ts rest t h => by
          obtain ⟨rfl, hk⟩ := h
          exact ⟨by simp, fun _ => .expect hk⟩
      have hparameters := perTokenAgain fun fuel => commaAgain hname .tooManyParameters fuel 0
      refine bind hparameters fun ps => mono (hgoes ps) ?_
      rintro ts rest f ⟨hne, hf⟩ us hps vs ⟨rfl, hcheck⟩ ws ⟨rfl, hst⟩
      refine .must hst (.check hcheck ?_ (.bind (hps hne) hf))
      simpa using fun _ => hne

theorem namedAgain {block : Parser (List Stmt)} (hb : Reads block (BlockAgain n more block))
    (label : FunctionLabel) :
    Reads (Parser.namedFunction block label) fun ts rest f =>
      ts ≠ [] ∧ Again n more (Parser.namedFunction block label) ts rest (f.down n) := by
  unfold Parser.namedFunction
  refine bind (expect .identifier _) fun name => mono (functionAgain hb label (some name)) ?_
  rintro ts rest f hf us ⟨rfl, hn⟩
  exact ⟨by simp, .must hn hf⟩

theorem superclassAgain (n : Nat) (more : List Token) : Reads Parser.superclassClause (Elsewhere n more Parser.superclassClause
    (Option.map (NameUse.down n))) := by
  unfold Parser.superclassClause
  refine forkAgain some_behind (m := Token.down n) (fun t => ?_) (fun t => ?_) ?_
  · rw [Token.kind_down]
    split <;> rfl
  · refine bind (expect .identifier _) fun name => pure ?_
    rintro rest us ⟨rfl, hn⟩ _ _
    exact .must hn (.pure rfl)
  · exact pure fun _ _ => .pure rfl

theorem classAgain {block : Parser (List Stmt)} (hb : Reads block (BlockAgain n more block)) :
    Reads (Parser.classDeclaration block) fun ts rest s =>
      Again n more (Parser.classDeclaration block) ts rest (s.down n) := by
  unfold Parser.classDeclaration
  have hmethod : Reads (Parser.namedFunction block .method >>= fun method => Pure.pure [method])
      fun ts rest as => ts ≠ [] ∧ Elsewhere n more
        (Parser.namedFunction block .method >>= fun method => Pure.pure [method])
        (fun as => as.map (FunctionDecl.down n)) ts rest as := by
    refine bind (namedAgain hb .method) fun f => pure ?_
    rintro rest us ⟨hne, hf⟩
    exact ⟨by simpa using hne, fun _ => .bind hf (.pure rfl)⟩
  have hmethods := perTokenAgain (braceAgain hmethod)
  refine bind (expect .identifier _) fun name => bind (superclassAgain n more) fun parent =>
    bind (expect .leftBrace _) fun brace => bind hmethods fun methods =>
    bind (expect .rightBrace _) fun last => pure ?_
  rintro rest us ⟨rfl, hl⟩ vs hm ws ⟨rfl, hbr⟩ xs hh ys ⟨rfl, hn⟩
  refine .must hn (.bind (hh (by simp)) (.must hbr (.bind (hm (by simp)) (.must hl (.pure ?_)))))
  rw [Stmt.down, downFunctions_eq]

/-! ### Declarations of variables and imports -/

theorem variableAgain {expression : Parser Expr}
    (he : Reads expression (Elsewhere n more expression (Expr.down n))) (mutability : Mutability) :
    Reads (Parser.variableDeclaration expression mutability) fun ts rest s =>
      Again n more (Parser.variableDeclaration expression mutability) ts rest (s.down n) := by
  have hgoes : ∀ (name : Token) (initial : Option Expr),
      Reads (Parser.expect .semicolon .variableEnd >>= fun _ =>
        Pure.pure (Stmt.var mutability name initial)) fun ts rest s => ts ++ rest ≠ [] ∧
          (∀ t us, ts ++ rest = t :: us → t.kind = .semicolon) ∧
          Again n more (Parser.expect .semicolon .variableEnd >>= fun _ =>
            Pure.pure (Stmt.var mutability (name.down n) (initial.map (Expr.down n)))) ts rest
            (s.down n) := by
    intro name initial
    refine bind (expect .semicolon _) fun last => pure ?_
    rintro rest us ⟨rfl, hl⟩
    refine ⟨by simp, fun t us ht => ?_, .must hl (.pure ?_)⟩
    · cases ht
      exact hl
    · cases initial <;> rw [Stmt.down] <;> rfl
  unfold Parser.variableDeclaration
  refine bind (expect .identifier _) fun name => bind (take? .equal) fun o => ?_
  cases o with
  | some equals =>
      refine bind (map (E := fun ts rest o => ∃ e, o = some e ∧
        Elsewhere n more expression (Expr.down n) ts rest e) (mono he fun _ _ e h => ⟨e, rfl, h⟩))
        fun initial => mono (hgoes name initial) ?_
      rintro ts rest s ⟨hne, -, hs⟩ us ⟨e, rfl, he⟩ vs ⟨rfl, heq⟩ ws ⟨rfl, hn⟩
      exact .must hn (.enterKind heq (.bind (.map (he hne) rfl) hs))
  | none =>
      by_cases hm : mutability = .constant
      · simp only [hm, if_true]
        exact bind (reportAt _ _) fun _ => bind (D := fun _ _ _ => True) (pure fun _ => trivial)
          fun o => mono (hm ▸ hgoes name o) fun _ _ _ _ _ _ _ h => h.elim
      · simp only [hm, if_false]
        refine bind (D := fun ts _ o => ts = [] ∧ o = none) (pure fun _ => ⟨rfl, rfl⟩) fun o =>
          mono (hgoes name o) ?_
        rintro ts rest s ⟨hne, hfront, hs⟩ us ⟨rfl, rfl⟩ vs ⟨rfl, heq⟩ ws ⟨rfl, hn⟩
        exact .must hn (.passKind heq (fun h => absurd h hne) hs)

theorem importAgain (keyword : Token) :
    Reads (Parser.importDeclaration keyword) fun ts rest s =>
      Again n more (Parser.importDeclaration (keyword.down n)) ts rest (s.down n) := by
  unfold Parser.importDeclaration
  refine bind (takeMap? _) fun o => ?_
  cases o with
  | none => exact fail _
  | some name =>
      have hgoes : ∀ as : Option Token, Reads (Parser.expect .semicolon .importEnd >>= fun _ =>
          Pure.pure (Stmt.importModule keyword name as)) fun ts rest s => ts ++ rest ≠ [] ∧
            Again n more (Parser.expect .semicolon .importEnd >>= fun _ => Pure.pure
              (Stmt.importModule (keyword.down n) (name.down n) (as.map (Token.down n)))) ts rest
              (s.down n) := by
        refine fun as => bind (expect .semicolon _) fun last => pure ?_
        rintro rest us ⟨rfl, hl⟩
        exact ⟨by simp, .must hl (.pure (by rw [Stmt.down]))⟩
      have hnamed : ∀ t : Token, (if t.kind = .identifier ∨ t.kind = .string then some t else none) =
          some name → (if (t.down n).kind = .identifier ∨ (t.down n).kind = .string
            then some (t.down n) else none) = some (name.down n) := by
        intro t ht
        rw [Token.kind_down]
        split at ht
        · next h =>
            rw [if_pos h]
            exact congrArg _ (congrArg _ (Option.some.inj ht))
        · cases ht
      refine bind (take? .as) fun o => ?_
      cases o with
      | none =>
          refine bind (D := fun ts _ o => ts = [] ∧ o = none) (pure fun _ => ⟨rfl, rfl⟩) fun as =>
            mono (hgoes as) ?_
          rintro ts rest s ⟨hne, hs⟩ us ⟨rfl, rfl⟩ vs ⟨rfl, hfront⟩ ws ⟨t, rfl, ht⟩
          exact .enter (hnamed t ht) (.passKind hfront (fun h => absurd h hne) hs)
      | some mark =>
          refine bind (map (E := fun ts _ o => ∃ t : Token, o = some t ∧ ts = [t] ∧
            t.kind = .identifier) (mono (expect .identifier _) fun _ _ t h => ⟨t, rfl, h⟩)) fun as =>
            mono (hgoes as) ?_
          rintro ts rest s ⟨-, hs⟩ us ⟨second, rfl, rfl, ha⟩ vs ⟨rfl, has⟩ ws ⟨t, rfl, ht⟩
          exact .enter (hnamed t ht) (.enterKind has (.bind (.map (.expect ha) rfl) hs))

/-! ### Statements -/

theorem down_forLoop (n : Nat) (initial : Option Stmt) (condition increment : Option Expr)
    (body : Stmt) : (forLoop initial condition increment body).down n =
      forLoop (initial.map (Stmt.down n)) (condition.map (Expr.down n))
        (increment.map (Expr.down n)) (body.down n) := by
  have hloop : ∀ e : Expr, (Stmt.while e body increment).down n =
      .while (e.down n) (body.down n) (increment.map (Expr.down n)) := by
    intro e
    cases increment <;> rw [Stmt.down] <;> rfl
  have hcondition : (condition.getD (.literal (.bool true))).down n =
      (condition.map (Expr.down n)).getD (.literal (.bool true)) := by
    cases condition with
    | none => exact Expr.down.eq_1 ..
    | some e => rfl
  unfold forLoop
  cases initial with
  | none => exact (hloop _).trans (by rw [hcondition]; rfl)
  | some s =>
      simp only [Option.map_some]
      rw [Stmt.down, downStmts_eq, List.map_cons, List.map_cons, List.map_nil, hloop, hcondition]

/-- A statement may reach to the end. -/
abbrev StatementAgain (n : Nat) (more : List Token) (statement : Parser Stmt) : Reading Stmt :=
  fun ts rest s => Again n more statement ts rest (s.down n)

section
variable {expression : Parser Expr} {statement : Parser Stmt}
  (he : Reads expression (Elsewhere n more expression (Expr.down n)))
include he

theorem expressionAgain : Reads (Parser.expressionStatement expression)
    (StatementAgain n more (Parser.expressionStatement expression)) := by
  unfold Parser.expressionStatement
  refine bind he fun e => bind (expect .semicolon _) fun last => pure ?_
  rintro rest us ⟨rfl, hl⟩ vs he
  exact .bind (he (by simp)) (.must hl (.pure (by rw [Stmt.down])))

theorem unlessAgain (kind : TokenKind) : Reads (Parser.unlessNext kind expression)
    (Elsewhere n more (Parser.unlessNext kind expression) (Option.map (Expr.down n))) := by
  unfold Parser.unlessNext
  refine bind (look kind) fun closes => ?_
  cases closes with
  | true =>
      refine pure ?_
      rintro rest us ⟨rfl, hfront⟩ hrest
      exact .check hfront hrest (.pure rfl)
  | false =>
      refine map (mono he ?_)
      rintro ts rest e h us ⟨rfl, hfront⟩ hrest
      exact .check hfront (by simp [hrest]) (.map (h hrest) rfl)

theorem initialAgain : Reads (Parser.forInitial expression)
    (Elsewhere n more (Parser.forInitial expression) (Option.map (Stmt.down n))) := by
  unfold Parser.forInitial
  refine forkKindAgain some_behind (fun t => pure fun _ _ _ => .pure rfl) ?_
  refine forkAgain some_behind (m := id) (fun t => ?_) (fun mutability => ?_) ?_
  · rw [Option.map_id]
    rfl
  · exact map (mono (variableAgain he mutability) fun _ _ _ h _ _ => .map h rfl)
  · exact map (mono (expressionAgain he) fun _ _ _ h _ => .map h rfl)

theorem printAgain : Reads (Parser.printStatement expression)
    (StatementAgain n more (Parser.printStatement expression)) := by
  unfold Parser.printStatement
  refine bind he fun e => bind (expect .semicolon _) fun last => pure ?_
  rintro rest us ⟨rfl, hl⟩ vs he
  exact .bind (he (by simp)) (.must hl (.pure (by rw [Stmt.down])))

theorem returnAgain (keyword : Token) : Reads (Parser.returnStatement expression keyword)
    (StatementAgain n more (Parser.returnStatement expression (keyword.down n))) := by
  unfold Parser.returnStatement
  refine bind (unlessAgain he .semicolon) fun value => bind (expect .semicolon _) fun last => pure ?_
  rintro rest us ⟨rfl, hl⟩ vs hvalue
  refine .bind (hvalue (by simp)) (.must hl (.pure ?_))
  cases value <;> rw [Stmt.down] <;> rfl

variable (hs : Reads statement (StatementAgain n more statement))
include hs

theorem whileAgain : Reads (Parser.whileStatement expression statement)
    (StatementAgain n more (Parser.whileStatement expression statement)) := by
  unfold Parser.whileStatement
  refine bind (expect .leftParen _) fun start => bind he fun condition =>
    bind (expect .rightParen _) fun close => bind hs fun body => pure ?_
  rintro rest us hbody vs ⟨rfl, hcl⟩ ws hc xs ⟨rfl, hst⟩
  refine .must hst (.bind (hc (by simp)) (.must hcl (.bind hbody (.pure ?_))))
  rw [Stmt.down]

theorem forAgain : Reads (Parser.forStatement expression statement)
    (StatementAgain n more (Parser.forStatement expression statement)) := by
  unfold Parser.forStatement
  refine bind (expect .leftParen _) fun start => bind (initialAgain he) fun initial =>
    bind (unlessAgain he .semicolon) fun condition => bind (expect .semicolon _) fun semicolon =>
    bind (unlessAgain he .rightParen) fun increment => bind (expect .rightParen _) fun close =>
    bind hs fun body => pure ?_
  rintro rest us hbody vs ⟨rfl, hcl⟩ ws ha xs ⟨rfl, hsemi⟩ ys hc zs hi os ⟨rfl, hst⟩
  refine .must hst (.bind (hi (by simp)) (.bind (hc (by simp)) (.must hsemi
    (.bind (ha (by simp)) (.must hcl (.bind hbody (.pure (down_forLoop ..).symm)))))))

/-- No `else` comes behind the end. -/
theorem ifAgain (hmore : NoElse more) : Reads (Parser.ifStatement expression statement)
    (StatementAgain n more (Parser.ifStatement expression statement)) := by
  unfold Parser.ifStatement
  refine bind (expect .leftParen _) fun start => bind he fun condition =>
    bind (expect .rightParen _) fun close => bind hs fun first => bind (take? .else) fun o => ?_
  cases o with
  | none =>
      refine bind (D := fun ts _ o => ts = [] ∧ o = none) (pure fun _ => ⟨rfl, rfl⟩) fun second =>
        pure ?_
      rintro rest us ⟨rfl, rfl⟩ vs ⟨rfl, helse⟩ ws hfirst xs ⟨rfl, hcl⟩ ys hc zs ⟨rfl, hst⟩
      refine .must hst (.bind (hc (by simp)) (.must hcl (.bind hfirst ?_)))
      refine .passKind helse (fun _ => hmore) (.pure ?_)
      rw [Stmt.down]
  | some other =>
      refine bind (map (E := fun ts rest o => ∃ s, o = some s ∧ StatementAgain n more statement ts rest s)
        (mono hs fun _ _ s h => ⟨s, rfl, h⟩)) fun second => pure ?_
      rintro rest us ⟨s, rfl, hsecond⟩ vs ⟨rfl, helse⟩ ws hfirst xs ⟨rfl, hcl⟩ ys hc zs ⟨rfl, hst⟩
      refine .must hst (.bind (hc (by simp)) (.must hcl (.bind hfirst ?_)))
      refine .enterKind helse (.bind (.map hsecond rfl) (.pure ?_))
      rw [Stmt.down]

end

/-! ### Expressions -/

theorem primaryAgain {expression : Parser Expr} {block : Parser (List Stmt)}
    (he : Reads expression (Elsewhere n more expression (Expr.down n)))
    (hb : Reads block (BlockAgain n more block)) : Reads (Parser.primary expression block)
      (Elsewhere n more (Parser.primary expression block) (Expr.down n)) := by
  unfold Parser.primary
  refine forkAgain some_behind (m := id) (fun t => ?_) (fun value => ?_) ?_
  · rw [Option.map_id]
    rfl
  · exact pure fun _ _ _ => .pure (Expr.down.eq_1 ..).symm
  refine forkKindAgain some_behind (fun keyword => ?_) ?_
  · refine bind (expect .dot _) fun dot => bind (expect .identifier _) fun method => pure ?_
    rintro rest us ⟨rfl, hm⟩ ts ⟨rfl, hd⟩ _ _
    exact .must hd (.must hm (.pure (by rw [Expr.down]; rfl)))
  refine forkKindAgain some_behind (fun t => pure fun _ _ _ => .pure (by rw [Expr.down]; rfl)) ?_
  refine forkKindAgain some_behind (fun t => pure fun _ _ _ => .pure (by rw [Expr.down]; rfl)) ?_
  refine forkAgain some_behind (m := Token.down n) (fun t => ?_) (fun t => ?_) ?_
  · rw [Token.kind_down]
    split <;> rfl
  · refine bind (functionAgain hb .lambda none) fun f => pure fun rest us hf _ _ => ?_
    exact .bind hf (.pure (by rw [Expr.down]))
  refine forkKindAgain some_behind (fun start => ?_) (fail _)
  refine bind he fun e => bind (expect .rightParen _) fun close => pure ?_
  rintro rest us ⟨rfl, hcl⟩ ts he _ _
  exact .bind (he (by simp)) (.must hcl (.pure (by rw [Expr.down])))

theorem assignAgain (n : Nat) (more : List Token) (target : Expr) (equals : Token) (value : Expr) :
    Reads (Parser.assignTo target equals value) fun ts rest e => ts = [] ∧ Again n more
      (Parser.assignTo (target.down n) (equals.down n) (value.down n)) ts rest (e.down n) := by
  unfold Parser.assignTo
  cases target with
  | name use =>
      refine pure fun _ => ⟨rfl, ?_⟩
      rw [Expr.down]
      exact .pure (by rw [Expr.down])
  | get object name =>
      refine pure fun _ => ⟨rfl, ?_⟩
      rw [Expr.down]
      exact .pure (by rw [Expr.down])
  | _ => exact bind (reportAt _ _) fun _ => pure fun _ _ h => h.elim

/-- A function declaration begins with two tokens, which must be seen. -/
theorem followsAgain {yes no : Parser Stmt} (hyes : Reads yes (StatementAgain n more yes))
    (hno : Reads no fun ts rest s => 2 ≤ ts.length → Again n more no ts rest (s.down n)) :
    Reads (Parser.functionFollows >>= fun b => if b = true then skip >>= fun _ => yes else no)
      fun ts rest s => 2 ≤ ts.length → Again n more
        (Parser.functionFollows >>= fun b => if b = true then skip >>= fun _ => yes else no) ts rest
        (s.down n) := by
  have hfollows : Reads Parser.functionFollows fun ts rest b => ts = [] ∧ ∀ t next us,
      rest = t :: next :: us →
        b = decide ((t.kind = .fun ∨ t.kind = .define) ∧ next.kind = .identifier) := by
    intro c _
    rw [functionFollows_run]
    split
    · next t next us hr =>
        refine ⟨.refl c, fun _ => ⟨[], rfl, rfl, fun t' next' us' h => ?_⟩⟩
        rw [hr] at h
        cases h
        rfl
    · next hshort =>
        exact ⟨.refl c, fun _ => ⟨[], rfl, rfl, fun t next us h => absurd h (hshort t next us)⟩⟩
  have hskip : Reads skip fun ts rest _ => ∀ t us, ts ++ rest = t :: us → ts = [t] := by
    intro c _
    change Outcome c _ (.ok () { c with rest := c.rest.tail })
    cases hr : c.rest with
    | nil =>
        refine ⟨⟨rfl, rfl, List.nil_suffix, Nat.le_refl _⟩, fun _ => ⟨[], hr, fun t us h => ?_⟩⟩
        cases h
    | cons t rest =>
        refine ⟨.advance hr, fun _ => ⟨[t], hr, fun t' us h => ?_⟩⟩
        cases h
        rfl
  refine bind hfollows fun b => ?_
  cases b with
  | true =>
      refine bind hskip fun _ => mono hyes ?_
      rintro ts rest s h us hus vs ⟨rfl, hfront⟩ hlong
      cases us with
      | nil =>
          obtain ⟨t, next, ws, rfl⟩ : ∃ t next ws, ts = t :: next :: ws := by
            match ts, hlong with
            | t :: next :: ws, _ => exact ⟨t, next, ws, rfl⟩
          cases hus t _ rfl
      | cons t ws =>
          obtain rfl : ws = [] := by simpa using hus t _ rfl
          cases ts with
          | nil => exact absurd hlong (by simp)
          | cons next ts =>
              obtain ⟨hk, hn⟩ := of_decide_eq_true (hfront t next _ rfl).symm
              exact Accepts.enterFunction hk hn h
  | false =>
      refine mono hno ?_
      rintro ts rest s h us ⟨rfl, hfront⟩ hlong
      refine Accepts.passFunction ?_ (h hlong)
      match ts, hlong with
      | t :: next :: ws, _ =>
          rintro t' next' us' ht hk hn
          cases ht
          exact of_decide_eq_false (hfront t next _ rfl).symm ⟨hk, hn⟩

end Reads

/-! ### Nesting levels -/

/-- What the mutually recursive readers read elsewhere. -/
structure LevelAgain (n : Nat) (more : List Token) (levels : Nat) : Prop where
  declaration : Reads (declaration levels) fun ts rest ss =>
    Again n more (declaration levels) ts rest (ss.map (Stmt.down n))
  statement : Reads (statement levels) (Reads.StatementAgain n more (statement levels))
  block : Reads (block levels) (Reads.BlockAgain n more (block levels))
  expression : Reads (expression levels) (Reads.Elsewhere n more (expression levels) (Expr.down n))
  assignment : Reads (assignment levels) (Reads.Elsewhere n more (assignment levels) (Expr.down n))
  chain : ∀ tier,
    Reads (chain levels tier) (Reads.Elsewhere n more (chain levels tier) (Expr.down n))
  unary : Reads (unary levels) (Reads.Elsewhere n more (unary levels) (Expr.down n))
  call : Reads (call levels) (Reads.Elsewhere n more (call levels) (Expr.down n))

namespace LevelAgain
variable {n levels : Nat} {more : List Token}

theorem zero : LevelAgain n more 0 where
  declaration := Reads.throw_tooDeep
  statement := Reads.throw_tooDeep
  block := Reads.throw_tooDeep
  expression := Reads.throw_tooDeep
  assignment := Reads.throw_tooDeep
  chain := fun _ => Reads.throw_tooDeep
  unary := Reads.throw_tooDeep
  call := Reads.throw_tooDeep

/-- An expression has a token. -/
theorem some_expression (ih : LevelAgain n more levels) :
    Reads (Parser.expression levels) fun ts rest e =>
      ts ≠ [] ∧ Reads.Elsewhere n more (Parser.expression levels) (Expr.down n) ts rest e :=
  Reads.mono ((levelSound levels).expression.and ih.expression) fun _ _ _ ⟨hd, h⟩ =>
    ⟨hd.opening.ne_nil, h⟩

theorem call_succ (ih : LevelAgain n more levels) : Reads (Parser.call (levels + 1))
    (Reads.Elsewhere n more (Parser.call (levels + 1)) (Expr.down n)) := by
  unfold Parser.call
  refine Reads.bind (Reads.primaryAgain ih.expression ih.block) fun first =>
    Reads.mono (Reads.perTokenAgain fun fuel => Reads.callAgain ih.some_expression fuel first) ?_
  intro ts rest e he us hf hrest
  exact .bind (hf (by simp [hrest])) (he hrest)

theorem unary_succ (ih : LevelAgain n more levels) : Reads (Parser.unary (levels + 1))
    (Reads.Elsewhere n more (Parser.unary (levels + 1)) (Expr.down n)) := by
  unfold Parser.unary
  refine Reads.forkAgain Reads.some_behind (m := fun b => (b.1, b.2.down n)) (fun t => ?_)
    (fun b => ?_) ih.call
  · unfold UnaryOp.ofToken?
    rw [Token.kind_down]
    split <;> rfl
  · refine Reads.bind ih.unary fun e => Reads.pure fun rest us h _ hrest => ?_
    exact .bind (h hrest) (.pure (by rw [Expr.down]))

theorem chain_succ (ih : LevelAgain n more levels) (tier : Tier) :
    Reads (Parser.chain (levels + 1) tier)
      (Reads.Elsewhere n more (Parser.chain (levels + 1) tier) (Expr.down n)) := by
  have hchain : ∀ {operand : Parser Expr},
      Reads operand (Reads.Elsewhere n more operand (Expr.down n)) →
      Reads (operand >>= fun first => perToken fun fuel => leftward tier.join? operand fuel first)
        (Reads.Elsewhere n more (operand >>= fun first => perToken fun fuel =>
          leftward tier.join? operand fuel first) (Expr.down n)) := by
    intro operand hoperand
    refine Reads.bind hoperand fun first => Reads.mono (Reads.perTokenAgain fun fuel =>
      Reads.leftwardAgain (fun t => (tier.join?_down n t).1) (fun t => (tier.join?_down n t).2)
        hoperand fuel first) ?_
    intro ts rest e he us hf hrest
    exact .bind (hf (by simp [hrest])) (he hrest)
  unfold Parser.chain
  cases tier.tighter? with
  | none => exact hchain ih.unary
  | some next => exact hchain (ih.chain next)

/-- The value of an assignment, if there is one, behind its target. -/
theorem assigned_again (ih : LevelAgain n more levels) (target : Expr) :
    Reads (Parser.take? .equal >>= fun o => match o with
      | none => Pure.pure target
      | some equals => Parser.assignment levels >>= fun value => assignTo target equals value)
      (Reads.Elsewhere n more (Parser.take? .equal >>= fun o => match o with
      | none => Pure.pure (target.down n)
      | some equals => Parser.assignment levels >>= fun value =>
          assignTo (target.down n) equals value) (Expr.down n)) := by
  refine Reads.forkKindAgain Reads.some_behind (fun equals => ?_)
    (Reads.pure fun _ _ => .pure rfl)
  refine Reads.bind ih.assignment fun value =>
    Reads.mono (Reads.assignAgain n more target equals value) ?_
  rintro ts rest e ⟨rfl, he⟩ us hv _ hrest
  exact .bind (hv hrest) he

theorem assignment_succ (ih : LevelAgain n more levels) : Reads (Parser.assignment (levels + 1))
    (Reads.Elsewhere n more (Parser.assignment (levels + 1)) (Expr.down n)) := by
  unfold Parser.assignment
  refine Reads.bind (ih.chain .or) fun target => Reads.mono (ih.assigned_again target) ?_
  intro ts rest e he us ht hrest
  exact .bind (ht (by simp [hrest])) (he hrest)

theorem block_succ (ih : LevelAgain n more levels) :
    Reads (Parser.block (levels + 1)) (Reads.BlockAgain n more (Parser.block (levels + 1))) := by
  unfold Parser.block
  have hitem : Reads (Parser.declaration levels) fun ts rest ss => ts ≠ [] ∧
      Reads.Elsewhere n more (Parser.declaration levels) (fun ss => ss.map (Stmt.down n)) ts rest
        ss := by
    refine Reads.mono ((levelSound levels).declaration.and ih.declaration) ?_
    rintro ts rest ss ⟨⟨s, -, hd⟩, h⟩
    obtain ⟨t, us, rfl, -⟩ := hd.opening
    exact ⟨List.cons_ne_nil _ _, fun _ => h⟩
  refine Reads.bind (Reads.perTokenAgain (Reads.braceAgain hitem)) fun body =>
    Reads.bind (Reads.expect .rightBrace _) fun last => Reads.pure ?_
  rintro rest us ⟨rfl, hl⟩ vs hbody
  exact .bind (hbody (by simp)) (.must hl (.pure rfl))

/-- There is a token if some are read. -/
theorem some_long (ts rest : List Token) (h : 2 ≤ ts.length) : ts ++ rest ≠ [] := by
  cases ts with
  | nil => cases h
  | cons t us => exact List.cons_ne_nil _ _

theorem keywordAgain {make : Token → Stmt} (hmake : ∀ t, (make t).down n = make (t.down n))
    (endMark : Expectation) (keyword : Token) : Reads (keywordStatement make endMark keyword)
      (Reads.StatementAgain n more (keywordStatement make endMark (keyword.down n))) := by
  unfold keywordStatement
  refine Reads.bind (Reads.expect .semicolon _) fun last => Reads.pure ?_
  rintro rest us ⟨rfl, hl⟩
  exact .must hl (.pure (hmake keyword).symm)

theorem statement_succ (hmore : Reads.NoElse more) (ih : LevelAgain n more levels) :
    Reads (Parser.statement (levels + 1))
      (Reads.StatementAgain n more (Parser.statement (levels + 1))) := by
  have hforms : Reads (Parser.statement (levels + 1)) fun ts rest s => 2 ≤ ts.length →
      Again n more (Parser.statement (levels + 1)) ts rest (s.down n) := by
    unfold Parser.statement statementForms
    refine Reads.forkKindAgain some_long (fun t => ?_) ?_
    · exact Reads.mono (Reads.forAgain ih.expression ih.statement) fun _ _ _ h _ _ => h
    refine Reads.forkKindAgain some_long (fun t => ?_) ?_
    · exact Reads.mono (Reads.ifAgain ih.expression ih.statement hmore) fun _ _ _ h _ _ => h
    refine Reads.forkKindAgain some_long (fun t => ?_) ?_
    · exact Reads.mono (Reads.printAgain ih.expression) fun _ _ _ h _ _ => h
    refine Reads.forkKindAgain some_long (fun t => ?_) ?_
    · exact Reads.mono (Reads.returnAgain ih.expression t) fun _ _ _ h _ _ => h
    refine Reads.forkKindAgain some_long (fun t => ?_) ?_
    · exact Reads.mono (Reads.whileAgain ih.expression ih.statement) fun _ _ _ h _ _ => h
    refine Reads.forkKindAgain some_long (fun t => ?_) ?_
    · exact Reads.mono (keywordAgain (fun t => by rw [Stmt.down]) _ t) fun _ _ _ h _ _ => h
    refine Reads.forkKindAgain some_long (fun t => ?_) ?_
    · exact Reads.mono (keywordAgain (fun t => by rw [Stmt.down]) _ t) fun _ _ _ h _ _ => h
    refine Reads.forkKindAgain some_long (fun t => ?_) ?_
    · refine Reads.bind ih.block fun body => Reads.pure fun rest us hb _ _ => ?_
      exact .bind hb (.pure (by rw [Stmt.down, downStmts_eq]))
    · exact Reads.mono (Reads.expressionAgain ih.expression) fun _ _ _ h _ => h
  refine Reads.mono ((levelSound (levels + 1)).statement.and hforms) ?_
  rintro ts rest s ⟨⟨_, hd, -⟩, h⟩
  exact h (Derives.two_le_length.1 hd)

theorem declaration_succ (ih : LevelAgain n more levels) :
    Reads (Parser.declaration (levels + 1)) fun ts rest ss =>
      Again n more (Parser.declaration (levels + 1)) ts rest (ss.map (Stmt.down n)) := by
  have hforms : Reads (declarationForms (Parser.expression levels) (Parser.block levels)
      (Parser.statement levels)) fun ts rest s => 2 ≤ ts.length →
        Again n more (declarationForms (Parser.expression levels) (Parser.block levels)
          (Parser.statement levels)) ts rest (s.down n) := by
    unfold declarationForms
    refine Reads.forkKindAgain some_long (fun t => ?_) ?_
    · exact Reads.mono (Reads.classAgain ih.block) fun _ _ _ h _ _ => h
    refine Reads.followsAgain ?_ ?_
    · refine Reads.bind (Reads.namedAgain ih.block .function) fun f => Reads.pure ?_
      rintro rest us ⟨-, hf⟩
      exact .bind hf (.pure (by rw [Stmt.down]))
    refine Reads.forkAgain some_long (m := id) (fun t => ?_) (fun mutability => ?_) ?_
    · rw [Option.map_id]
      rfl
    · exact Reads.mono (Reads.variableAgain ih.expression mutability) fun _ _ _ h _ _ => h
    refine Reads.forkKindAgain some_long (fun keyword => ?_) ?_
    · exact Reads.mono (Reads.importAgain keyword) fun _ _ _ h _ _ => h
    · exact Reads.mono ih.statement fun _ _ _ h _ => h
  unfold Parser.declaration
  have hrecovering := Reads.recovering (D := fun ts rest ss => 2 ≤ ts.length →
    Again n more (Parser.recovering (declarationForms (Parser.expression levels)
      (Parser.block levels) (Parser.statement levels))) ts rest (ss.map (Stmt.down n)))
    (Reads.mono hforms fun ts rest s h hlong => Leads.recovering (h hlong))
  refine Reads.mono ((levelSound (levels + 1)).declaration.and hrecovering) ?_
  rintro ts rest ss ⟨⟨s, rfl, hd⟩, h⟩
  exact h (Derives.two_le_length.2 hd)

end LevelAgain

theorem levelAgain {more : List Token} (hmore : Reads.NoElse more) (n levels : Nat) :
    LevelAgain n more levels := by
  induction levels with
  | zero => exact .zero
  | succ levels ih =>
      exact
        { declaration := ih.declaration_succ
          statement := ih.statement_succ hmore
          block := ih.block_succ
          expression := by
            unfold Parser.expression
            exact ih.assignment
          assignment := ih.assignment_succ
          chain := ih.chain_succ
          unary := ih.unary_succ
          call := ih.call_succ }

/-- Declarations up to the end, and then those behind them. -/
theorem Reads.programAgain {item : Parser (List Stmt)} {n : Nat} {more : List Token} {T : List Stmt}
    (hi : Reads item fun ts rest ss => ts ≠ [] ∧ Again n more item ts rest (ss.map (Stmt.down n)))
    (hmore : ∀ fuel, more.length < fuel → Runs False (Parser.program item fuel) more [] T)
    (fuel : Nat) :
    Reads (Parser.program item fuel) fun ts rest ss => (ts ++ rest).length < fuel →
      rest = [] ∧ ∀ fuel', (ts.map (Token.down n) ++ more).length < fuel' →
        Runs False (Parser.program item fuel') (ts.map (Token.down n) ++ more) []
          (ss.map (Stmt.down n) ++ T) := by
  induction fuel with
  | zero => exact Reads.pure fun rest h => by simp at h
  | succ fuel ih =>
      intro c hc
      rw [Parser.program]
      rw [Watched.get_bind]
      cases hr : c.rest with
      | nil =>
          exact ⟨Cursor.Follows.refl c, fun _ => ⟨[], rfl, fun _ => ⟨hr, hmore⟩⟩⟩
      | cons t rest =>
          have hb : Reads (item >>= fun first => Parser.program item fuel >>= fun others =>
              Pure.pure (first ++ others)) fun ts rest ss => (ts ++ rest).length < fuel + 1 →
                rest = [] ∧ ∀ fuel', (ts.map (Token.down n) ++ more).length < fuel' →
                  Runs False (Parser.program item fuel') (ts.map (Token.down n) ++ more) []
                    (ss.map (Stmt.down n) ++ T) := by
            refine Reads.bind hi fun first => Reads.bind ih fun others => Reads.pure ?_
            rintro rest us ho ts ⟨hne, hfirst⟩ hl
            have hpos := List.length_pos_iff.mpr hne
            simp only [List.append_nil, List.nil_append, List.length_append] at ho hfirst hl ⊢
            obtain ⟨rfl, hothers⟩ := ho (by omega)
            refine ⟨rfl, fun fuel' hfuel' => ?_⟩
            obtain ⟨fuel', rfl⟩ : ∃ n, fuel' = n + 1 := ⟨fuel' - 1, by omega⟩
            simp only [List.length_map, List.append_nil, List.map_append, List.append_assoc,
              List.length_append] at hothers hfirst hfuel' ⊢
            refine Accepts.programRound (by simpa using hne) ?_ (hothers fuel' (by omega))
            simpa using hfirst
          exact hb c hc

end Parser

/-- Reading ends well. -/
theorem parseTokens_eq_iff {levels endLine : Nat} {tokens : List Token} {T : List Stmt} :
    parseTokens levels tokens endLine = ⟨T, []⟩ ↔
      ∃ c, Parser.perToken (Parser.program (Parser.declaration levels))
        { rest := tokens, endLine := endLine } = .ok T c ∧ c.reports.size = 0 := by
  unfold parseTokens
  constructor
  · intro h
    split at h
    · next statements c hr =>
        obtain ⟨rfl, hreports⟩ := Parsed.mk.inj h
        exact ⟨c, hr, by simpa using congrArg List.length hreports⟩
    · have hreports := (Parsed.mk.inj h).2
      simp [Cursor.report] at hreports
  · rintro ⟨c, hr, hsize⟩
    rw [hr]
    simpa [← Array.length_toList, List.length_eq_zero_iff] using hsize

theorem Parser.noElse_down {n : Nat} {ts : List Token} (h : Reads.NoElse ts) :
    Reads.NoElse (ts.map (Token.down n)) := by
  intro t us ht
  cases ts with
  | nil => cases ht
  | cons t' us' =>
      cases ht
      exact h t' us' rfl

/-- Statements are read likewise some lines further down, with others behind them. -/
theorem runs_of_parseTokens {levels endLine : Nat} {tokens : List Token} {T T' : List Stmt}
    (h : parseTokens levels tokens endLine = ⟨T, []⟩) (n : Nat) (more : List Token) (hmore : Parser.Reads.NoElse more)
    (hT : ∀ fuel, more.length < fuel →
      Parser.Runs False (Parser.program (Parser.declaration levels) fuel) more [] T') (fuel : Nat)
    (hfuel : (tokens.map (Token.down n) ++ more).length < fuel) :
    Parser.Runs False (Parser.program (Parser.declaration levels) fuel)
      (tokens.map (Token.down n) ++ more) [] (T.map (Stmt.down n) ++ T') := by
  have hitem : Parser.Reads (Parser.declaration levels) fun ts rest ss => ts ≠ [] ∧
      Parser.Again n more (Parser.declaration levels) ts rest (ss.map (Stmt.down n)) := by
    refine Parser.Reads.mono ((Parser.levelSound levels).declaration.and
      (Parser.levelAgain hmore n levels).declaration) ?_
    rintro ts rest ss ⟨⟨s, -, hd⟩, h⟩
    obtain ⟨t, us, rfl, -⟩ := hd.opening
    exact ⟨List.cons_ne_nil _ _, h⟩
  obtain ⟨c, hr, hsize⟩ := parseTokens_eq_iff.mp h
  have hout := Parser.Reads.perToken (fun fuel => Parser.Reads.programAgain hitem hT fuel)
    { rest := tokens, endLine := endLine } (Nat.le_refl _)
  rw [hr] at hout
  obtain ⟨ts, hts, hend, hruns⟩ := hout.2 hsize
  rw [hend, List.append_nil] at hts
  obtain rfl : tokens = ts := hts
  exact hruns fuel hfuel

theorem parseTokens_of_runs {levels endLine : Nat} {tokens : List Token} {T : List Stmt}
    (h : ∀ fuel, tokens.length < fuel →
      Parser.Runs False (Parser.program (Parser.declaration levels) fuel) tokens [] T) :
    parseTokens levels tokens endLine = ⟨T, []⟩ := by
  rw [parseTokens_eq_iff]
  rcases Parser.Leads.perToken h { rest := tokens, endLine := endLine } (by simp) (Nat.le_refl _)
    with hr | ⟨hdeep, -⟩
  · exact ⟨_, hr, rfl⟩
  · exact hdeep.elim

/-- At the end there is nothing to read. -/
theorem Parser.runs_program_nil (item : Parser (List Stmt)) (fuel : Nat) (h : 0 < fuel) :
    Parser.Runs False (Parser.program item fuel) [] [] [] := by
  intro c hc _
  obtain ⟨fuel, rfl⟩ : ∃ n, fuel = n + 1 := ⟨fuel - 1, by omega⟩
  have hc' : c.rest = [] := hc
  refine .inl ?_
  rw [program]
  rw [Watched.get_bind]
  simp only [hc']
  rw [Cursor.eq_behind hc']

/-- Statements are read likewise some lines further down. -/
theorem parseTokens_down {levels endLine : Nat} {tokens : List Token} {T : List Stmt}
    (h : parseTokens levels tokens endLine = ⟨T, []⟩) (n endLine' : Nat) :
    parseTokens levels (tokens.map (Token.down n)) endLine' = ⟨T.map (Stmt.down n), []⟩ := by
  refine parseTokens_of_runs fun fuel hfuel => ?_
  have hruns := runs_of_parseTokens h n [] (fun t us ht => by cases ht)
    (fun fuel hfuel => Parser.runs_program_nil _ fuel (by simpa using hfuel)) fuel
    (by simpa using hfuel)
  simpa using hruns

/-- Statements and then others, further down, are read as both. -/
theorem parseTokens_append {levels endLine endLine' : Nat} {tokens tokens' : List Token}
    {T T' : List Stmt} (h : parseTokens levels tokens endLine = ⟨T, []⟩)
    (h' : parseTokens levels tokens' endLine' = ⟨T', []⟩) (n endLine'' : Nat) :
    parseTokens levels (tokens ++ tokens'.map (Token.down n)) endLine'' =
      ⟨T ++ T'.map (Stmt.down n), []⟩ := by
  have hmore : Parser.Reads.NoElse (tokens'.map (Token.down n)) := by
    refine Parser.noElse_down fun t us ht helse => ?_
    have hstarts := (derives_of_parseTokens h').opening t us ht
    rw [helse] at hstarts
    cases hstarts
  refine parseTokens_of_runs fun fuel hfuel => ?_
  have hbehind := fun fuel hfuel => runs_of_parseTokens h' n [] (fun t us ht => by cases ht)
    (fun fuel hfuel => Parser.runs_program_nil _ fuel (by simpa using hfuel)) fuel hfuel
  simp only [List.append_nil] at hbehind
  have hruns := runs_of_parseTokens h 0 _ hmore hbehind fuel
  rw [← downStmts_eq 0, downStmts_zero, show tokens.map (Token.down 0) = tokens from List.map_id _]
    at hruns
  exact hruns hfuel

end Treewalk
