import Mathlib.Data.List.Forall2
import Treewalk.Scoping
import Treewalk.Proofs.Scopes.Shape

/-!
# Open scopes and frames

The scopes open in name resolution agree with the frames around the node being resolved: a name is
complete in a scope if it is declared in the frame, and begun if its initial value is being made.
What name resolution does to its innermost scope keeps the agreement, as long as nothing is reported.
-/
namespace Treewalk

/-- A scope has the names of a frame. -/
structure StaticScope.Agrees (scope : StaticScope) (f : Frame) : Prop where
  names : ∀ x, scope.names.find? x =
    if x ∈ f.names then some true else if f.pending = some x then some false else none
  constants : ∀ x, x ∈ scope.constants ↔ (x, .constant) ∈ f.bound
  distinct : f.names.Nodup
  fresh : ∀ x, f.pending = some x → x ∉ f.names
  worded : ∀ x, f.pending = some x → TokenKind.ofWord x = .identifier

namespace StaticScope.Agrees
variable {scope : StaticScope} {f : Frame}

theorem contains_iff (h : scope.Agrees f) (x : String) :
    scope.names.contains x = true ↔ f.Knows x := by
  unfold Bindings.contains Frame.Knows
  rw [h.names x]
  by_cases hx : x ∈ f.names
  · simp [hx]
  · by_cases hp : f.pending = some x <;> simp [hx, hp]

theorem begun_iff (h : scope.Agrees f) (x : String) :
    scope.names.find? x = some false ↔ f.pending = some x := by
  rw [h.names x]
  by_cases hx : x ∈ f.names
  · have hp : f.pending ≠ some x := fun hp => h.fresh x hp hx
    simp [hx, hp]
  · by_cases hp : f.pending = some x <;> simp [hx, hp]

/-- The construct of a frame plays no part. -/
theorem of_bound {f' : Frame} (h : scope.Agrees f) (hb : f'.bound = f.bound)
    (hp : f'.pending = f.pending) : scope.Agrees f' := by
  obtain ⟨c, bound, pending⟩ := f
  obtain ⟨c', bound', pending'⟩ := f'
  cases hb
  cases hp
  exact ⟨h.names, h.constants, h.distinct, h.fresh, h.worded⟩

/-- The declaration of a name begins. -/
theorem begun (h : scope.Agrees f) {name : String} (hp : f.pending = none) (hname : name ∉ f.names)
    (hword : TokenKind.ofWord name = .identifier) :
    ({ scope with names := scope.names.insert name false } : StaticScope).Agrees
      { f with pending := some name } where
  names := by
    intro x
    rw [Bindings.find?_insert, h.names x]
    change _ = if x ∈ f.names then some true else if some name = some x then some false else none
    by_cases hx : name = x
    · subst hx
      simp [hname]
    · simp [hx, hp]
  constants := h.constants
  distinct := h.distinct
  fresh := by
    intro x hx
    cases hx
    exact hname
  worded := by
    intro x hx
    cases hx
    exact hword

/-- The declaration of a name is complete. -/
theorem completed (h : scope.Agrees f) {name : String} {m : Mutability} {t : StaticScope}
    (hp : ∀ x, f.pending = some x → x = name) (hname : name ∉ f.names)
    (hnames : ∀ x, t.names.find? x = if name = x then some true else scope.names.find? x)
    (hconst : ∀ x, x ∈ t.constants ↔ x ∈ scope.constants ∨ x = name ∧ m = .constant) :
    t.Agrees { f with bound := f.bound ++ [(name, m)], pending := none } := by
  have hsnoc : Frame.names { f with bound := f.bound ++ [(name, m)], pending := none } =
      f.names ++ [name] := by simp [Frame.names]
  constructor
  case names =>
    intro x
    rw [hnames x, h.names x, hsnoc]
    by_cases hx : name = x
    · subst hx
      simp
    · have hpx : f.pending ≠ some x := fun e => hx (hp x e).symm
      simp [hx, hpx, Ne.symm hx]
  case constants =>
    intro x
    rw [hconst x, h.constants x, List.mem_append, List.mem_singleton, Prod.mk.injEq]
    constructor
    · rintro (hx | ⟨rfl, rfl⟩)
      · exact .inl hx
      · exact .inr ⟨rfl, rfl⟩
    · rintro (hx | ⟨rfl, hm⟩)
      · exact .inl hx
      · exact .inr ⟨rfl, hm.symm⟩
  case distinct =>
    rw [hsnoc, List.nodup_append]
    refine ⟨h.distinct, by simp, ?_⟩
    intro x hx y hy hxy
    rw [List.mem_singleton] at hy
    subst hxy hy
    exact hname hx
  case fresh => exact fun _ hx => by cases hx
  case worded => exact fun _ hx => by cases hx

end StaticScope.Agrees

/-- A new scope. -/
theorem StaticScope.agrees_empty (c : Construct) : ({} : StaticScope).Agrees ⟨c, [], none⟩ where
  names := fun _ => rfl
  constants := fun _ => by simp
  distinct := List.nodup_nil
  fresh := fun _ h => by cases h
  worded := fun _ h => by cases h

/-- A scope with one name. -/
theorem StaticScope.agrees_single (name : String) (c : Construct) :
    ({ names := ({} : Bindings Bool).insert name true } : StaticScope).Agrees
      ⟨c, [(name, .variable)], none⟩ where
  names := by
    intro x
    rw [Bindings.find?_insert]
    by_cases h : name = x
    · simp [h, Frame.names]
    · simp [h, Frame.names, Ne.symm h, Bindings.find?, Bindings.lookup]
  constants := fun _ => by simp
  distinct := by simp [Frame.names]
  fresh := fun _ h => by cases h
  worded := fun _ h => by cases h

namespace Scoping

/-- No error was reported. -/
def Clean (s : Scoping) : Prop := countErrors s.notices.toList = 0

/-- The open scopes agree with the frames, and the global constants are `K`. -/
structure Agrees (K : List String) (s : Scoping) (frames : List Frame) : Prop where
  scopes : List.Forall₂ StaticScope.Agrees s.scopes frames
  constants : ∀ x, x ∈ s.globalConstants ↔ x ∈ K

theorem Agrees.of_eq {K : List String} {s t : Scoping} {frames : List Frame}
    (h : s.Agrees K frames) (hs : t.scopes = s.scopes)
    (hc : t.globalConstants = s.globalConstants) : t.Agrees K frames :=
  ⟨hs ▸ h.scopes, hc ▸ h.constants⟩

theorem Agrees.length {K : List String} {s : Scoping} {frames : List Frame}
    (h : s.Agrees K frames) : s.scopes.length = frames.length := h.scopes.length_eq

theorem not_clean_report (s : Scoping) (token : Token) (error : StaticError) :
    ¬ (s.report token error).Clean := by
  simp [Clean, report, countErrors_append]

/-! ### Looking names up -/

/-- A name that is found is known in the frame, and if no constant is denoted, then not as one. -/
theorem hops?_some {name : String} {G : List String} {scopes : List StaticScope}
    {frames : List Frame} {h : Nat} (ha : List.Forall₂ StaticScope.Agrees scopes frames)
    (hh : hops? name scopes = some h) :
    ∃ scope f, scopes[h]? = some scope ∧ frames[h]? = some f ∧
      scope.names.contains name = true ∧ f.Knows name ∧
      (isConstantIn name G scopes = false → (name, .constant) ∉ f.bound) := by
  induction ha generalizing h with
  | nil => cases hh
  | @cons scope f scopes frames hf _ ih =>
      unfold hops? at hh
      by_cases hc : scope.names.contains name = true
      · simp only [hc, if_true] at hh
        cases hh
        refine ⟨scope, f, rfl, rfl, hc, (hf.contains_iff name).mp hc, fun hconst hb => ?_⟩
        unfold isConstantIn at hconst
        simp only [hc, if_true, decide_eq_false_iff_not] at hconst
        exact hconst ((hf.constants name).mpr hb)
      · simp only [hc, Bool.false_eq_true, if_false] at hh
        obtain ⟨h', hh', rfl⟩ := Option.map_eq_some_iff.mp hh
        obtain ⟨scope', f', hs, hf', hcontains, hknows, hconst⟩ := ih hh'
        refine ⟨scope', f', by simpa using hs, by simpa using hf', hcontains, hknows,
          fun h => hconst ?_⟩
        unfold isConstantIn at h
        simpa only [hc, Bool.false_eq_true, if_false] using h

/-- The hops of a name lead to the innermost frame that knows it. -/
theorem hops?_eq_some_iff {name : String} {scopes : List StaticScope} {frames : List Frame}
    (ha : List.Forall₂ StaticScope.Agrees scopes frames) (n : Nat) :
    hops? name scopes = some n ↔ Innermost (fun _ f => f.Knows name) frames n := by
  induction ha generalizing n with
  | nil => exact ⟨fun h => (nomatch h), fun h => h.not_nil.elim⟩
  | @cons scope f scopes frames hf _ ih =>
      unfold hops?
      by_cases hc : scope.names.contains name = true
      · have hknows := (hf.contains_iff name).mp hc
        rw [if_pos hc]
        cases n with
        | zero => simp only [Innermost.cons_zero, hknows]
        | succ n => simp [Innermost.cons_succ, hknows]
      · have hnot := mt (hf.contains_iff name).mpr hc
        rw [if_neg hc]
        cases n with
        | zero => simp [Innermost.cons_zero, hnot]
        | succ n => simp [Innermost.cons_succ, hnot, ih]

/-- A name that is not found is a global. -/
theorem hops?_none {name : String} {G : List String} {scopes : List StaticScope}
    (hh : hops? name scopes = none) : isConstantIn name G scopes = decide (name ∈ G) := by
  induction scopes with
  | nil => rfl
  | cons scope scopes ih =>
      unfold hops? at hh
      by_cases hc : scope.names.contains name = true
      · simp only [hc, if_true] at hh
        cases hh
      · simp only [hc, Bool.false_eq_true, if_false, Option.map_eq_none_iff] at hh
        unfold isConstantIn
        simpa only [hc, Bool.false_eq_true, if_false] using ih hh

/-! ### Declarations -/

/-! ### Declarations -/

theorem clean_of_declare {s : Scoping} {token : Token} {name : String}
    (h : (s.declare token name).Clean) : s.Clean := by
  unfold declare at h
  cases hs : s.scopes with
  | nil =>
      simp only [hs] at h
      by_cases hc : name ∈ s.globalConstants
      · simp only [hc, if_true] at h
        exact (not_clean_report _ _ _ h).elim
      · simpa only [hc, if_false] using h
  | cons inner outer =>
      simp only [hs] at h
      by_cases hc : inner.names.contains name = true
      · simp only [hc, if_true] at h
        exact (not_clean_report _ _ _ h).elim
      · simp only [hc, Bool.false_eq_true, if_false] at h
        exact h

theorem clean_define {s : Scoping} {name : String} : (s.define name).Clean ↔ s.Clean := by
  unfold define
  cases s.scopes <;> rfl

theorem clean_setMutability {s : Scoping} {name : String} {m : Mutability} :
    (s.setMutability name m).Clean ↔ s.Clean := by
  unfold setMutability
  cases s.scopes <;> rfl

/-- A declaration that is not reported: the name is new. -/
theorem declare_cases {s : Scoping} {token : Token} {name : String}
    (h : (s.declare token name).Clean) :
    (s.scopes = [] ∧ name ∉ s.globalConstants ∧ s.declare token name = s) ∨
      ∃ inner outer, s.scopes = inner :: outer ∧ inner.names.contains name = false ∧
        s.declare token name =
          { s with scopes := { inner with names := inner.names.insert name false } :: outer } := by
  unfold declare at h ⊢
  cases hs : s.scopes with
  | nil =>
      simp only [hs] at h
      by_cases hc : name ∈ s.globalConstants
      · simp only [hc, if_true] at h
        exact (not_clean_report _ _ _ h).elim
      · exact .inl ⟨rfl, hc, by simp only [hc, if_false]⟩
  | cons inner outer =>
      simp only [hs] at h
      by_cases hc : inner.names.contains name = true
      · simp only [hc, if_true] at h
        exact (not_clean_report _ _ _ h).elim
      · exact .inr ⟨inner, outer, rfl, by simpa using hc, by simp only [hc, Bool.false_eq_true, if_false]⟩

namespace Agrees
variable {K : List String} {s : Scoping} {frames : List Frame} {token : Token} {name : String}

theorem declare (h : s.Agrees K frames) (hsettled : Settled frames)
    (hword : TokenKind.ofWord name = .identifier) (hc : (s.declare token name).Clean) :
    (s.declare token name).Agrees K (beginning name frames) := by
  rcases declare_cases hc with ⟨hs, -, he⟩ | ⟨inner, outer, hs, hnew, he⟩
  · have hscopes := h.scopes
    rw [hs] at hscopes
    cases hscopes
    rw [he]
    exact h
  · have hscopes := h.scopes
    rw [hs] at hscopes
    cases hscopes with
    | @cons _ f _ frames hf hrest =>
        have hname : name ∉ f.names := fun hx => by
          have := (hf.contains_iff name).mpr (.inl hx)
          rw [hnew] at this
          cases this
        rw [he]
        exact ⟨.cons (hf.begun hsettled hname hword) hrest, h.constants⟩

/-- Outside all scopes only a new name is declared without an error. -/
theorem declare_fresh (h : s.Agrees K []) (hc : (s.declare token name).Clean) : name ∉ K := by
  have hscopes := h.scopes
  rcases declare_cases hc with ⟨-, hnew, -⟩ | ⟨inner, outer, hs, -, -⟩
  · exact fun hx => hnew ((h.constants name).mpr hx)
  · rw [hs] at hscopes
    cases hscopes

/-- The end of a declaration. -/
theorem define (h : s.Agrees K (beginning name frames)) (hsettled : Settled frames)
    (hnew : frames = [] → name ∉ K) (m : Mutability) :
    ((s.define name).setMutability name m).Agrees (globally K [(name, m)] frames)
      (declaring [(name, m)] frames) := by
  have hscopes := h.scopes
  cases frames with
  | nil =>
      have hs : s.scopes = [] := by
        cases hs : s.scopes with
        | nil => rfl
        | cons inner outer =>
            rw [hs] at hscopes
            cases hscopes
      have hnew := hnew rfl
      unfold Scoping.define setMutability
      simp only [hs]
      refine ⟨.nil, fun x => ?_⟩
      cases m with
      | «variable» =>
          simp only [globally, List.mem_append, mem_constantNames, List.mem_filter, h.constants x,
            decide_eq_true_eq, List.mem_singleton, Prod.mk.injEq, reduceCtorEq, and_false, or_false]
          exact ⟨And.left, fun hx => ⟨hx, fun e => hnew (e ▸ hx)⟩⟩
      | constant =>
          simp only [globally, List.mem_append, mem_constantNames, List.mem_insert_iff,
            h.constants x, List.mem_singleton, Prod.mk.injEq, and_true]
          exact or_comm
  | cons f outer =>
      cases hs : s.scopes with
      | nil =>
          rw [hs] at hscopes
          cases hscopes
      | cons inner others =>
          rw [hs] at hscopes
          cases hscopes with
          | cons hf hrest =>
              have hname : name ∉ f.names := hf.fresh name rfl
              have hpending : ∀ x, (some name : Option String) = some x → x = name :=
                fun x hx => (Option.some.inj hx).symm
              have hinner : ∀ constants : List String,
                  (∀ x, x ∈ constants ↔ x ∈ inner.constants ∨ x = name ∧ m = .constant) →
                  StaticScope.Agrees ⟨inner.names.insert name true, constants⟩
                    { f with bound := f.bound ++ [(name, m)] } := fun constants hc =>
                (hf.completed (t := ⟨inner.names.insert name true, constants⟩) hpending hname
                  (fun x => Bindings.find?_insert _ _ _ _) hc).of_bound rfl hsettled
              unfold Scoping.define setMutability
              simp only [hs]
              refine ⟨.cons (hinner _ fun x => ?_) hrest, h.constants⟩
              cases m with
              | «variable» =>
                  have hconst : x ∈ inner.constants → x ≠ name := fun hx e =>
                    hname (List.mem_map_of_mem (f := Prod.fst) ((hf.constants name).mp (e ▸ hx)))
                  simpa using hconst
              | constant => simp [List.mem_insert_iff, or_comm]

theorem bind (h : s.Agrees K frames) (hsettled : Settled frames)
    (hc : ((s.declare token name).define name).Clean) :
    ((s.declare token name).define name).Agrees K (declaring [(name, .variable)] frames) := by
  have hscopes := h.scopes
  rcases declare_cases (clean_define.mp hc) with ⟨hs, -, he⟩ | ⟨inner, outer, hs, hnew, he⟩
  · rw [hs] at hscopes
    cases hscopes
    rw [he]
    unfold Scoping.define
    simp only [hs]
    exact ⟨.nil, h.constants⟩
  · rw [hs] at hscopes
    cases hscopes with
    | @cons _ f _ frames hf hrest =>
        have hname : name ∉ f.names := fun hx => by
          have hin := (hf.contains_iff name).mpr (.inl hx)
          rw [hnew] at hin
          cases hin
        have hpending : ∀ x, f.pending = some x → x = name := fun x hx => by
          rw [hsettled] at hx
          cases hx
        have hinner := hf.completed (m := .variable)
          (t := { inner with names := (inner.names.insert name false).insert name true })
          hpending hname (fun x => by
            rw [Bindings.find?_insert, Bindings.find?_insert]
            by_cases hx : name = x <;> simp [hx]) (fun x => by simp)
        rw [he]
        exact ⟨.cons (hinner.of_bound rfl hsettled) hrest, h.constants⟩

/-- A new scope without names. -/
theorem enter_nil (h : s.Agrees K frames) (c : Construct) :
    (s.enter []).Agrees K (⟨c, [], none⟩ :: frames) :=
  ⟨.cons (StaticScope.agrees_empty c) h.scopes, h.constants⟩

/-- A new scope with one name. -/
theorem enter_single (h : s.Agrees K frames) (name : String) (c : Construct) :
    (s.enter [name]).Agrees K (⟨c, [(name, .variable)], none⟩ :: frames) :=
  ⟨.cons (StaticScope.agrees_single name c) h.scopes, h.constants⟩

theorem leave {f : Frame} (h : s.Agrees K (f :: frames)) : s.leave.Agrees K frames := by
  have hscopes := h.scopes
  unfold Scoping.leave
  cases hs : s.scopes with
  | nil =>
      rw [hs] at hscopes
      cases hscopes
  | cons inner outer =>
      rw [hs] at hscopes
      cases hscopes with
      | cons _ hrest => exact ⟨hrest, h.constants⟩

/-- The innermost scope has all names of the innermost frame. -/
theorem head {f : Frame} (h : s.Agrees K (f :: frames)) :
    (s.scopes.headD {}).Agrees f := by
  have hscopes := h.scopes
  cases hs : s.scopes with
  | nil =>
      rw [hs] at hscopes
      cases hscopes
  | cons inner outer =>
      rw [hs] at hscopes
      cases hscopes with
      | cons hf _ => exact hf

end Agrees
end Scoping
end Treewalk
