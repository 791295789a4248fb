import Mathlib.Data.Nat.Digits.Defs
import Treewalk.Proofs.Outlines.Forms
import Treewalk.Token.Scan

/-!
# Numbers in outlines

What the text of a finite number is made of. It is a word of a form, and no name is spelled like it: it
has a point or the sign of an exponent.
-/
namespace Treewalk

/-- The double is a number and no infinity. -/
def IsFinite (x : Float) : Prop := ∃ negative m e, Double.ofFloat x = .finite negative m e

/-- The characters of finite numbers. -/
def isNumeric (c : Char) : Bool := c.isDigit || c == '.' || c == 'e' || c == '+' || c == '-'

theorem isMark_of_numeric {c : Char} (h : isNumeric c = true) : isMark c = false := by
  by_contra hmark
  rw [Bool.not_eq_false] at hmark
  unfold isMark at hmark
  simp only [Bool.or_eq_true, beq_iff_eq] at hmark
  rcases hmark with (rfl | rfl) | rfl <;> exact absurd h (by decide)

theorem isNumeric_of_digit {c : Char} (h : c.isDigit = true) : isNumeric c = true := by
  unfold isNumeric
  simp only [h, Bool.true_or]

/-- All characters of a text belong to finite numbers. -/
def Numeric (s : String) : Prop := ∀ c ∈ s.toList, isNumeric c = true

namespace Numeric
variable {s t : String} {ds : List Char}

theorem of_all (h : s.toList.all isNumeric = true) : Numeric s := List.all_eq_true.mp h

theorem append (hs : Numeric s) (ht : Numeric t) : Numeric (s ++ t) := by
  intro c hc
  rw [String.toList_append, List.mem_append] at hc
  exact hc.elim (hs c) (ht c)

theorem ofList (h : ∀ c ∈ ds, c.isDigit = true) : Numeric (String.ofList ds) := by
  intro c hc
  rw [String.toList_ofList] at hc
  exact isNumeric_of_digit (h c hc)

theorem zeros (n : Nat) : Numeric (NumberLayout.zeros n) :=
  ofList fun c hc => by rw [List.eq_of_mem_replicate hc]; rfl

theorem toString (n : Nat) : Numeric (ToString.toString n) := by
  intro c hc
  rw [Nat.toString_eq_repr, Nat.toList_repr] at hc
  exact isNumeric_of_digit (Nat.isDigit_of_mem_toDigits (by decide) (by decide) hc)

theorem exponentText (e : Int) : Numeric (NumberLayout.outline.exponentText e) := by
  have hsign : Numeric (if e < 0 then "-" else "+") := by
    split <;> exact .of_all (by decide)
  exact (hsign.append (zeros _)).append (toString _)

theorem positional (h : ∀ c ∈ ds, c.isDigit = true) (point : Int) :
    Numeric (NumberLayout.outline.positional ds point) := by
  have hzero : Numeric "0." := .of_all (by decide)
  have hpoint : Numeric "." := .of_all (by decide)
  have hsuffix : Numeric ".0" := .of_all (by decide)
  unfold NumberLayout.positional
  dsimp only
  split
  · exact (hzero.append (zeros _)).append (ofList h)
  · split
    · exact ((ofList h).append (zeros _)).append hsuffix
    · exact ((ofList fun c hc => h c (List.mem_of_mem_take hc)).append hpoint).append
        (ofList fun c hc => h c (List.mem_of_mem_drop hc))

theorem scientific (h : ∀ c ∈ ds, c.isDigit = true) (e : Int) :
    Numeric (NumberLayout.outline.scientific ds e) := by
  have hpoint : Numeric "." := .of_all (by decide)
  have hletter : Numeric "e" := .of_all (by decide)
  have hfraction : Numeric (if ds.length ≤ 1 then "" else "." ++ String.ofList (ds.drop 1)) := by
    split
    · exact fun c hc => nomatch hc
    · exact hpoint.append (ofList fun c hc => h c (List.mem_of_mem_drop hc))
  unfold NumberLayout.scientific
  exact (((ofList fun c hc => h c (List.mem_of_mem_take hc)).append hfraction).append hletter).append
    (exponentText e)

end Numeric

/-- Some character of a text is part of no name. -/
def Nameless (s : String) : Prop := ∃ c ∈ s.toList, isNamePart c = false

namespace Nameless
variable {s t : String}

theorem left (h : Nameless s) (t : String) : Nameless (s ++ t) := by
  obtain ⟨c, hc, hpart⟩ := h
  exact ⟨c, by rw [String.toList_append]; exact List.mem_append_left _ hc, hpart⟩

theorem right (s : String) (h : Nameless t) : Nameless (s ++ t) := by
  obtain ⟨c, hc, hpart⟩ := h
  exact ⟨c, by rw [String.toList_append]; exact List.mem_append_right _ hc, hpart⟩

theorem exponentText (e : Int) : Nameless (NumberLayout.outline.exponentText e) := by
  have hsign : Nameless (if e < 0 then "-" else "+") := by
    split
    · exact ⟨'-', by decide, by decide⟩
    · exact ⟨'+', by decide, by decide⟩
  exact (hsign.left _).left _

theorem positional (ds : List Char) (point : Int) :
    Nameless (NumberLayout.outline.positional ds point) := by
  have hpoint : ∀ s : String, '.' ∈ s.toList → Nameless s := fun s hs => ⟨'.', hs, by decide⟩
  unfold NumberLayout.positional
  dsimp only
  split
  · exact ((hpoint "0." (by decide)).left _).left _
  · split
    · exact (hpoint ".0" (by decide)).right _
    · exact ((hpoint "." (by decide)).right _).left _

end Nameless

/-- The text of a finite number is a word that is no name. -/
theorem write_finite {x : Float} (h : IsFinite x) :
    (∀ c ∈ (NumberLayout.outline.write x).toList, isMark c = false) ∧
      ∃ c ∈ (NumberLayout.outline.write x).toList, isNamePart c = false := by
  obtain ⟨negative, m, e, hx⟩ := h
  have hdigits : ∀ n, ∀ c ∈ Nat.toDigits 10 n, c.isDigit = true := fun n c hc =>
    Nat.isDigit_of_mem_toDigits (by decide) (by decide) hc
  have hsign : Numeric (if negative = true then "-" else "") := by
    cases negative <;> exact .of_all (by decide)
  have hwrite : NumberLayout.outline.write x = (if negative = true then "-" else "") ++
      (if m = 0 then NumberLayout.outline.positional ['0'] 1
        else NumberLayout.outline.decimal (Decimal.shortest m e)) := by
    unfold NumberLayout.write
    rw [hx]
    rfl
  have hparts : ∀ s, Numeric s → Nameless s →
      (∀ c ∈ ((if negative = true then "-" else "") ++ s).toList, isMark c = false) ∧
        ∃ c ∈ ((if negative = true then "-" else "") ++ s).toList, isNamePart c = false :=
    fun s hs hs' => ⟨fun c hc => isMark_of_numeric ((hsign.append hs) c hc), hs'.right _⟩
  rw [hwrite]
  refine hparts _ ?_ ?_
  · split
    · exact .positional (List.forall_mem_singleton.mpr rfl) 1
    · unfold NumberLayout.decimal
      dsimp only
      split
      · exact .positional (hdigits _) _
      · exact .scientific (hdigits _) _
  · split
    · exact .positional _ _
    · unfold NumberLayout.decimal
      dsimp only
      split
      · exact .positional _ _
      · unfold NumberLayout.scientific
        exact .right _ (.exponentText _)

end Treewalk
