import Treewalk.Proofs.Scopes.Placement

/-!
# Looking names up

What the single steps of name resolution do: they leave the open scopes and the constants as they
are, take no error back, and give a use hops to a frame that knows its name.
-/
namespace Treewalk

namespace Scoping

/-- The same scopes and constants, and at least the errors. -/
structure Follows (s s' : Scoping) : Prop where
  scopes : s'.scopes = s.scopes
  constants : s'.globalConstants = s.globalConstants
  clean : s'.Clean → s.Clean

theorem Follows.refl (s : Scoping) : s.Follows s := ⟨rfl, rfl, id⟩

theorem follows_report (s : Scoping) (token : Token) (error : StaticError) :
    s.Follows (s.report token error) :=
  ⟨rfl, rfl, fun h => (not_clean_report s token error h).elim⟩

/-- The open scope of a frame that knows a name. -/
theorem Agrees.scope {K : List String} {s : Scoping} {frames : List Frame} {name : String} {h : Nat}
    {f : Frame} (ha : s.Agrees K frames) (hf : frames[h]? = some f) (hknows : f.Knows name) :
    ∃ scope, s.scopes[h]? = some scope ∧ scope.names.contains name = true := by
  have hlt : h < frames.length := (List.getElem?_eq_some_iff.mp hf).1
  have hlt' : h < s.scopes.length := ha.length ▸ hlt
  have hagrees := List.forall₂_iff_get.mp ha.scopes
  have hget := hagrees.2 h hlt' hlt
  have hfget : frames.get ⟨h, hlt⟩ = f := (List.getElem?_eq_some_iff.mp hf).2
  rw [hfget] at hget
  exact ⟨s.scopes[h], List.getElem?_eq_getElem hlt', (hget.contains_iff name).mpr hknows⟩

end Scoping

namespace Resolve
open Scoping
variable {s s' : Scoping} {use use' : NameUse}

theorem report_ok {token : Token} {error : StaticError} {u : Unit}
    (h : report token error s = .ok u s') : s' = s.report token error := by
  cases h
  rfl

theorem record_ok {form : UseForm} {hops : Nat} (h : record form use hops s = .ok use' s') :
    s.Follows s' ∧ use' = { use with hops := some hops } := by
  cases h
  exact ⟨⟨rfl, rfl, id⟩, rfl⟩

theorem lookUp_ok {form : UseForm} (hraw : use.hops = none)
    (h : lookUp form use s = .ok use' s') :
    s.Follows s' ∧ use'.name = use.name ∧ use'.hops = hops? use.name.lexeme s.scopes := by
  unfold lookUp at h
  obtain ⟨t, t', hget, h⟩ := Watched.bind_ok h
  cases hget
  cases hh : hops? use.name.lexeme s.scopes with
  | some hops =>
      simp only [hh] at h
      obtain ⟨hfollows, rfl⟩ := record_ok h
      exact ⟨hfollows, rfl, rfl⟩
  | none =>
      simp only [hh] at h
      cases h
      exact ⟨.refl s, rfl, hraw⟩

/-- Outside the scope of the use. -/
theorem readOuter_ok {outer : List StaticScope} (hraw : use.hops = none)
    (h : readOuter use outer s = .ok use' s') :
    s.Follows s' ∧ use'.name = use.name ∧
      use'.hops = (hops? use.name.lexeme outer).map (· + 1) := by
  unfold readOuter at h
  cases hh : hops? use.name.lexeme outer with
  | some hops =>
      simp only [hh] at h
      obtain ⟨hfollows, rfl⟩ := record_ok h
      exact ⟨hfollows, rfl, rfl⟩
  | none =>
      simp only [hh] at h
      obtain ⟨t, t', hget, h⟩ := Watched.bind_ok h
      cases hget
      by_cases hg : use.name.lexeme ∈ s.globals
      · simp only [hg, if_true] at h
        obtain ⟨u, t, hlog, h⟩ := Watched.bind_ok h
        cases hlog
        cases h
        refine ⟨⟨rfl, rfl, fun hc => ?_⟩, rfl, hraw⟩
        simpa [Clean, countErrors_append] using hc
      · simp only [hg, if_false] at h
        obtain ⟨u, t, hreport, h⟩ := Watched.bind_ok h
        cases hreport
        cases h
        exact ⟨follows_report s _ _, rfl, hraw⟩

/-- A name is looked up in all frames, the innermost included. -/
theorem lookUp_lexical {K : List String} {frames : List Frame} {form : UseForm}
    (hraw : use.hops = none) (h : lookUp form use s = .ok use' s') (ha : s.Agrees K frames)
    (hread : ∀ f, frames[0]? = some f → f.pending = some use.name.lexeme → form ≠ .read) :
    use'.Lexical form frames := by
  obtain ⟨-, hname, hhops⟩ := lookUp_ok hraw h
  intro n
  rw [hhops, hname, hops?_eq_some_iff ha.scopes]
  refine Innermost.congr fun m f hf => or_congr_right ⟨fun hp => ⟨hp, fun hform => ?_⟩, And.left⟩
  cases m with
  | zero => exact (hread f hf hp hform).elim
  | succ m => exact Nat.succ_pos m

/-- A name whose initial value is being made in the innermost frame is looked up in the others. -/
theorem readOuter_lexical {K : List String} {inner : StaticScope} {outer : List StaticScope}
    {frames : List Frame} (hraw : use.hops = none) (h : readOuter use outer s = .ok use' s')
    (hs : s.scopes = inner :: outer) (hbegun : inner.names.find? use.name.lexeme = some false)
    (ha : s.Agrees K frames) : use'.Lexical .read frames := by
  obtain ⟨-, hname, hhops⟩ := readOuter_ok hraw h
  have hscopes := ha.scopes
  rw [hs] at hscopes
  cases hscopes with
  | @cons _ f _ frames hinner houter =>
      have hpending := (hinner.begun_iff _).mp hbegun
      have hfirst : ¬f.Offers .read use.name.lexeme 0 := by
        rintro (hx | ⟨-, hpos⟩)
        · exact hinner.fresh _ hpending hx
        · exact Nat.lt_irrefl 0 (hpos rfl)
      intro n
      rw [hhops, hname]
      cases n with
      | zero => simp [Innermost.cons_zero, hfirst]
      | succ n =>
          rw [Innermost.cons_succ, Option.map_eq_some_iff]
          simp only [Nat.add_right_cancel_iff, exists_eq_right, hfirst, not_false_eq_true, true_and]
          rw [hops?_eq_some_iff houter]
          exact Innermost.congr fun m g _ =>
            or_congr_right ⟨fun hp => ⟨hp, fun _ => Nat.succ_pos m⟩, And.left⟩

theorem read_ok (hraw : use.hops = none) (h : read use s = .ok use' s') :
    s.Follows s' ∧ use'.name = use.name ∧
      ∀ K frames, s.Agrees K frames → use'.Lexical .read frames := by
  unfold read at h
  obtain ⟨t, t', hget, h⟩ := Watched.bind_ok h
  cases hget
  cases hs : s.scopes with
  | nil =>
      have hnone : use'.hops = none ∧ s.Follows s' ∧ use'.name = use.name := by
        simp only [hs] at h
        by_cases hg : use.name.lexeme ∈ s.initializing ∧ use.name.lexeme ∉ s.globals
        · simp only [hg, not_false_eq_true, and_self, if_true] at h
          obtain ⟨u, t, hreport, h⟩ := Watched.bind_ok h
          cases hreport
          cases h
          exact ⟨hraw, follows_report s _ _, rfl⟩
        · simp only [hg, if_false] at h
          cases h
          exact ⟨hraw, .refl s, rfl⟩
      refine ⟨hnone.2.1, hnone.2.2, fun K frames ha n => ?_⟩
      have hframes : frames = [] := List.length_eq_zero_iff.mp (by rw [← ha.length, hs]; rfl)
      rw [hnone.1, hframes]
      exact ⟨fun hn => (nomatch hn), fun hn => hn.not_nil.elim⟩
  | cons inner outer =>
      simp only [hs] at h
      by_cases hbegun : inner.names.find? use.name.lexeme = some false
      · simp only [hbegun, if_true] at h
        obtain ⟨hfollows, hname, -⟩ := readOuter_ok hraw h
        exact ⟨hfollows, hname, fun K frames ha => readOuter_lexical hraw h hs hbegun ha⟩
      · simp only [hbegun, if_false] at h
        obtain ⟨hfollows, hname, -⟩ := lookUp_ok hraw h
        refine ⟨hfollows, hname, fun K frames ha => lookUp_lexical hraw h ha fun f hf hp => ?_⟩
        -- Were it the innermost frame that makes the value, its scope would have begun the name.
        have hscopes := ha.scopes
        rw [hs] at hscopes
        cases hscopes with
        | cons hinner _ =>
            cases hf
            exact (hbegun ((hinner.begun_iff _).mpr hp)).elim

/-- A use of `this`, which is no name that a variable can have. -/
theorem lookUp_this {K : List String} {frames : List Frame} {form : UseForm}
    (hraw : use.hops = none) (hword : TokenKind.ofWord use.name.lexeme = .this)
    (h : lookUp form use s = .ok use' s') (ha : s.Agrees K frames) : use'.Reads frames := by
  obtain ⟨-, hname, hhops⟩ := lookUp_ok hraw h
  intro n hn
  rw [hhops] at hn
  obtain ⟨scope, f, hscope, hf, -, hknows, -⟩ := hops?_some (G := []) ha.scopes hn
  rw [hname]
  refine ⟨f, hf, hknows.imp_right fun hp => ?_⟩
  have hlt := (List.getElem?_eq_some_iff.mp hf).1
  have hagrees := (List.forall₂_iff_get.mp ha.scopes).2 n (ha.length ▸ hlt) hlt
  have hfget : frames.get ⟨n, hlt⟩ = f := (List.getElem?_eq_some_iff.mp hf).2
  rw [hfget] at hagrees
  have hvariable := hagrees.worded _ hp
  rw [hword] at hvariable
  cases hvariable

/-- A use that is assigned to, which denotes no constant. -/
theorem lookUp_assigns {K : List String} {frames : List Frame} {form : UseForm}
    (hraw : use.hops = none) (hconst : s.isConstant use.name.lexeme = false)
    (h : lookUp form use s = .ok use' s') (ha : s.Agrees K frames) : use'.Assigns K frames := by
  obtain ⟨-, hname, hhops⟩ := lookUp_ok hraw h
  constructor
  · intro n hn
    rw [hhops] at hn
    obtain ⟨scope, f, -, hf, -, hknows, hvariable⟩ :=
      hops?_some (G := s.globalConstants) ha.scopes hn
    rw [hname]
    exact ⟨f, hf, hknows, hvariable hconst⟩
  · intro hn
    rw [hhops] at hn
    have hglobal := hops?_none (G := s.globalConstants) hn
    unfold isConstant at hconst
    rw [hglobal, decide_eq_false_iff_not, ha.constants] at hconst
    rw [hname]
    exact hconst

/-- A check that may report something. -/
theorem check_ok {c : Scoping → Prop} [DecidablePred c] {token : Token} {error : StaticError}
    {u : Unit} (h : (do if c (← get) then report token error : Resolve Unit) s = .ok u s') :
    s.Follows s' ∧ (s'.Clean → ¬ c s) := by
  obtain ⟨t, t', hget, h⟩ := Watched.bind_ok h
  cases hget
  by_cases hc : c s
  · simp only [hc, if_true] at h
    cases h
    exact ⟨follows_report s _ _, fun hclean => (not_clean_report s _ _ hclean).elim⟩
  · simp only [hc, if_false] at h
    cases h
    exact ⟨.refl s, fun _ => hc⟩

theorem checkFieldWrite_ok {object : Expr} {name : Token} {u : Unit}
    (h : checkFieldWrite object name s = .ok u s') : s.Follows s' := by
  unfold checkFieldWrite at h
  cases object with
  | name use => exact (check_ok (c := fun s => s.isConstant use.name.lexeme = true) h).1
  | _ =>
      cases h
      exact .refl s

theorem checkSuper_ok {keyword : Token} {u : Unit} (h : checkSuper keyword s = .ok u s') :
    s.Follows s' := by
  unfold checkSuper at h
  obtain ⟨t, t', hget, h⟩ := Watched.bind_ok h
  cases hget
  cases hc : s.classContext <;> simp only [hc] at h <;> cases h
  · exact follows_report s _ _
  · exact follows_report s _ _
  · exact .refl s

theorem checkReturn_ok {keyword : Token} {u : Unit} (h : checkReturn keyword s = .ok u s') :
    s.Follows s' := (check_ok (c := fun s => s.function = .none) h).1

end Resolve
end Treewalk
