import Mathlib.Order.Bounds.Defs
import Treewalk.Proofs.Grammar.Tracing
import Treewalk.Proofs.Grammar.Reading

/-!
# What happens while tokens are read

`Progress` has one rule for each thing that can happen while a token list is read. What every course
of reading has in common follows from the rules: it only goes ahead and never leaves the list, each
round of a loop over declarations or methods takes a token, and behind a syntax error it resumes
where a statement can begin.
-/
namespace Treewalk

/-- A statement can begin there, or the tokens end. -/
def StatementBoundary (tokens : List Token) (i : Nat) : Prop :=
  i = tokens.length ∨ (∃ t, tokens[i]? = some t ∧ t.kind.startsStatement = true) ∨
    (0 < i ∧ ∃ t, tokens[i - 1]? = some t ∧ t.kind = .semicolon)

/-- The boundaries behind a token. -/
def laterBoundaries (tokens : List Token) (i : Nat) : Set Nat :=
  {j | i < j ∧ StatementBoundary tokens j}

/-- Where an error at a token is reported, or at the end. -/
def placeAt (tokens : List Token) (endLine i : Nat) : Place :=
  match tokens[i]? with
  | some t => .ofToken t
  | none => .endOfInput endLine

/-- What is true of each note. -/
def ReadingMark.Fits (tokens : List Token) (endLine : Nat) (m : ReadingMark) : Prop :=
  match m.event with
  | .looked ahead found =>
      m.position + ahead ≤ tokens.length ∧ tokens[m.position + ahead]? = found
  | .lookedBack => 0 < m.position ∧ m.position ≤ tokens.length
  | .unwound d => d.place = placeAt tokens endLine m.position
  | .resumed => True
  | .round start => start < m.position
  | .exhausted => False

/-- Behind an error at the token `i`, reading goes on at the token `j`: at the first boundary behind
that token, but at the end if that is where the error is. -/
def ResumesAt (tokens : List Token) (i j : Nat) : Prop :=
  (i = tokens.length ∧ j = i) ∨ (i < tokens.length ∧ IsLeast (laterBoundaries tokens i) j)

/-- Of the tokens, those before the current one have been read, and these notes were taken. While an
error unwinds a declaration, it is known at which token the error is. -/
inductive Progress (tokens : List Token) (endLine : Nat) :
    Option Nat → Cursor → List ReadingMark → Prop
  | start : Progress tokens endLine none { rest := tokens, endLine := endLine } []
  | read {error : Option Nat} {c : Cursor} {notes : List ReadingMark} {t : Token}
      {rest : List Token} :
      Progress tokens endLine error c notes → c.rest = t :: rest →
      Progress tokens endLine error { c with rest := rest } notes
  | report {c : Cursor} {notes : List ReadingMark} (place : Place) (e : StaticError) :
      Progress tokens endLine none c notes → Progress tokens endLine none (c.report place e) notes
  | looked {error : Option Nat} {c : Cursor} {notes : List ReadingMark} :
      Progress tokens endLine error c notes →
      Progress tokens endLine error c (⟨c.position, .looked 0 c.rest.head?⟩ :: notes)
  | lookedAhead {c : Cursor} {notes : List ReadingMark} :
      Progress tokens endLine none c notes → c.rest ≠ [] →
      Progress tokens endLine none c (⟨c.position, .looked 1 c.rest[1]?⟩ :: notes)
  | lookedBack {error : Option Nat} {c : Cursor} {notes : List ReadingMark} :
      Progress tokens endLine error c notes → 0 < c.position →
      Progress tokens endLine error c (⟨c.position, .lookedBack⟩ :: notes)
  | unwound {c : Cursor} {notes : List ReadingMark} (e : StaticError) :
      Progress tokens endLine none c notes →
      Progress tokens endLine (some c.position) (c.report c.place e)
        (⟨c.position, .unwound ⟨c.place, e⟩⟩ :: notes)
  | resumed {c : Cursor} {notes : List ReadingMark} {i : Nat} :
      Progress tokens endLine (some i) c notes → ResumesAt tokens i c.position →
      Progress tokens endLine none c (⟨c.position, .resumed⟩ :: notes)
  | round {c : Cursor} {notes : List ReadingMark} {start : Nat} :
      Progress tokens endLine none c notes → start < c.position →
      Progress tokens endLine none c (⟨c.position, .round start⟩ :: notes)

/-- A token is looked at. -/
def ReadingMark.IsLook (m : ReadingMark) : Prop :=
  match m.event with
  | .looked .. | .lookedBack => True
  | _ => False

/-- Behind each error, tokens are only looked at until reading resumes. -/
def Answered (tokens : List Token) (notes : List ReadingMark) : Prop :=
  ∀ later i d earlier, notes = later ++ ⟨i, .unwound d⟩ :: earlier →
    ∃ later' looks j, later = later' ++ ⟨j, .resumed⟩ :: looks ∧ (∀ m ∈ looks, m.IsLook) ∧
      ResumesAt tokens i j

/-- The same while an error at the token `i` is not answered yet. -/
def Awaiting (tokens : List Token) (i : Nat) (notes : List ReadingMark) : Prop :=
  ∃ looks d earlier, notes = looks ++ ⟨i, .unwound d⟩ :: earlier ∧ (∀ m ∈ looks, m.IsLook) ∧
    Answered tokens earlier

namespace Answered
variable {tokens : List Token} {notes : List ReadingMark}

theorem nil : Answered tokens [] := fun later i d earlier h => by
  cases later <;> cases h

theorem cons (h : Answered tokens notes) {m : ReadingMark} (hm : ∀ d, m.event ≠ .unwound d) :
    Answered tokens (m :: notes) := by
  intro later i d earlier hnotes
  cases later with
  | nil =>
      obtain ⟨rfl, -⟩ := List.cons.inj hnotes
      exact absurd rfl (hm d)
  | cons n later =>
      obtain ⟨rfl, htail⟩ := List.cons.inj hnotes
      obtain ⟨later', looks, j, rfl, hlooks, hresumes⟩ := h later i d earlier htail
      exact ⟨m :: later', looks, j, rfl, hlooks, hresumes⟩

theorem unwound (h : Answered tokens notes) (i : Nat) (d : Diagnostic) :
    Awaiting tokens i (⟨i, .unwound d⟩ :: notes) :=
  ⟨[], d, notes, rfl, fun _ hm => (List.not_mem_nil hm).elim, h⟩

end Answered

namespace Awaiting
variable {tokens : List Token} {notes : List ReadingMark} {i : Nat}

theorem look (h : Awaiting tokens i notes) {m : ReadingMark} (hm : m.IsLook) :
    Awaiting tokens i (m :: notes) := by
  obtain ⟨looks, d, earlier, rfl, hlooks, hearlier⟩ := h
  exact ⟨m :: looks, d, earlier, rfl, List.forall_mem_cons.mpr ⟨hm, hlooks⟩, hearlier⟩

theorem resumed (h : Awaiting tokens i notes) {j : Nat} (hresumes : ResumesAt tokens i j) :
    Answered tokens (⟨j, .resumed⟩ :: notes) := by
  obtain ⟨looks, d, earlier, rfl, hlooks, hearlier⟩ := h
  intro later i' d' earlier' hnotes
  cases later with
  | nil => cases hnotes
  | cons m later =>
      obtain ⟨rfl, hbehind⟩ := List.cons.inj hnotes
      rcases List.append_eq_append_iff.mp hbehind with
        ⟨_ | ⟨n, between⟩, rfl, htail⟩ | ⟨_ | ⟨n, between⟩, rfl, htail⟩
      · cases htail
        exact ⟨[], looks, j, by simp, hlooks, hresumes⟩
      · -- The error is one of the earlier ones.
        obtain ⟨later', looks', j', rfl, hlooks', hresumes'⟩ :=
          hearlier _ _ _ _ (List.cons.inj htail).2
        exact ⟨⟨j, .resumed⟩ :: (looks ++ n :: later'), looks', j', by simp, hlooks', hresumes'⟩
      · cases htail
        exact ⟨[], later, j, rfl, by simpa using hlooks, hresumes⟩
      · -- Looking at a token is no error.
        obtain ⟨rfl, -⟩ := List.cons.inj htail
        exact (hlooks ⟨i', .unwound d'⟩ (by simp)).elim

end Awaiting

/-- Every error is answered but the one at the given token. -/
def AnsweredBut (tokens : List Token) : Option Nat → List ReadingMark → Prop
  | none, notes => Answered tokens notes
  | some i, notes => Awaiting tokens i notes

theorem AnsweredBut.look {tokens : List Token} {error : Option Nat} {notes : List ReadingMark}
    (h : AnsweredBut tokens error notes) {m : ReadingMark} (hm : m.IsLook) :
    AnsweredBut tokens error (m :: notes) := by
  cases error with
  | none =>
      refine Answered.cons h fun d hd => ?_
      rw [ReadingMark.IsLook, hd] at hm
      exact hm
  | some i => exact Awaiting.look h hm

namespace Cursor

/-- Tokens are skipped up to the next boundary behind the first of them. -/
theorem skipStatement_least {tokens : List Token} {i : Nat} (hi : i < tokens.length) :
    ∃ j, skipStatement (tokens.drop i) = tokens.drop j ∧ j ≤ tokens.length ∧
      IsLeast (laterBoundaries tokens i) j := by
  have hnext : ∀ j ∈ laterBoundaries tokens i, i + 1 ≤ j := fun j hj => hj.1
  induction hn : tokens.length - i generalizing i with
  | zero => omega
  | succ n ih =>
      rw [List.drop_eq_getElem_cons hi]
      by_cases hlast : i + 1 = tokens.length
      · refine ⟨i + 1, ?_, Nat.le_of_eq hlast, ⟨Nat.lt_succ_self i, .inl hlast⟩, hnext⟩
        rw [hlast, List.drop_length]
        rfl
      · have hi' : i + 1 < tokens.length := by omega
        rw [List.drop_eq_getElem_cons hi', skipStatement]
        split
        · next hstop =>
            refine ⟨i + 1, (List.drop_eq_getElem_cons hi').symm, Nat.le_of_lt hi',
              ⟨Nat.lt_succ_self i, .inr ?_⟩, hnext⟩
            rcases hstop with hsemicolon | hkeyword
            · exact .inr ⟨Nat.succ_pos i, _, List.getElem?_eq_getElem hi, hsemicolon⟩
            · exact .inl ⟨_, List.getElem?_eq_getElem hi', hkeyword⟩
        · next hgo =>
            obtain ⟨j, hskip, hj, hmem, hleast⟩ := ih hi' (fun j hj => hj.1) (by omega)
            rw [← List.drop_eq_getElem_cons hi']
            refine ⟨j, hskip, hj, ⟨Nat.lt_of_succ_lt hmem.1, hmem.2⟩, fun k hk => hleast ⟨?_, hk.2⟩⟩
            -- The token behind the first is no boundary.
            refine Nat.lt_of_le_of_ne hk.1 ?_
            rintro rfl
            rcases hk.2 with hend | ⟨t, ht, hkeyword⟩ | ⟨-, t, ht, hsemicolon⟩
            · exact hlast hend
            · rw [List.getElem?_eq_getElem hi'] at ht
              cases ht
              exact hgo (.inr hkeyword)
            · rw [Nat.add_sub_cancel, List.getElem?_eq_getElem hi] at ht
              cases ht
              exact hgo (.inl hsemicolon)

end Cursor

namespace Progress
open Cursor
variable {tokens : List Token} {endLine : Nat} {error : Option Nat} {c : Cursor}
  {notes : List ReadingMark}

/-- What reading leaves as it is. -/
structure Frame (tokens : List Token) (endLine : Nat) (c : Cursor) : Prop where
  total : c.total = tokens.length
  endLine : c.endLine = endLine
  rest : c.rest <:+ tokens

theorem frame (h : Progress tokens endLine error c notes) : Frame tokens endLine c := by
  induction h with
  | start => exact ⟨rfl, rfl, List.suffix_rfl⟩
  | read _ hrest ih => exact ⟨ih.total, ih.endLine, ((hrest ▸ List.suffix_cons _ _)).trans ih.rest⟩
  | report _ _ _ ih => exact ⟨ih.total, ih.endLine, ih.rest⟩
  | looked _ ih => exact ih
  | lookedAhead _ _ ih => exact ih
  | lookedBack _ _ ih => exact ih
  | unwound _ _ ih => exact ⟨ih.total, ih.endLine, ih.rest⟩
  | resumed _ _ ih => exact ih
  | round _ _ ih => exact ih

theorem position_add (h : Progress tokens endLine error c notes) :
    c.position + c.rest.length = tokens.length := by
  have hlength := h.frame.rest.length_le
  unfold position
  rw [h.frame.total]
  omega

theorem rest_eq (h : Progress tokens endLine error c notes) :
    c.rest = tokens.drop c.position := by
  unfold position
  rw [h.frame.total]
  exact List.suffix_iff_eq_drop.mp h.frame.rest

theorem place_eq (h : Progress tokens endLine error c notes) :
    c.place = placeAt tokens endLine c.position := by
  unfold place placeAt
  rw [h.frame.endLine, h.rest_eq, ← List.head?_drop]
  cases tokens.drop c.position <;> rfl

theorem position_read {t : Token} {rest : List Token} (h : Progress tokens endLine error c notes)
    (hrest : c.rest = t :: rest) : Cursor.position { c with rest := rest } = c.position + 1 := by
  have hlength := h.frame.rest.length_le
  change c.total - rest.length = c.total - c.rest.length + 1
  rw [h.frame.total]
  rw [hrest, List.length_cons] at hlength ⊢
  omega

/-- Each note was taken where reading is or had been before, and not behind a later one. -/
theorem ordered (h : Progress tokens endLine error c notes) :
    (∀ m ∈ notes, m.position ≤ c.position) ∧
      notes.Pairwise fun later earlier => earlier.position ≤ later.position := by
  -- The note that is taken now is the latest.
  have hnote : ∀ {c : Cursor} {notes : List ReadingMark} (e : ReadingEvent),
      ((∀ m ∈ notes, m.position ≤ c.position) ∧
        notes.Pairwise fun later earlier => earlier.position ≤ later.position) →
      (∀ m ∈ (⟨c.position, e⟩ : ReadingMark) :: notes, m.position ≤ c.position) ∧
        (⟨c.position, e⟩ :: notes).Pairwise fun later earlier => earlier.position ≤ later.position :=
    fun e h => ⟨List.forall_mem_cons.mpr ⟨Nat.le_refl _, h.1⟩, List.pairwise_cons.mpr h⟩
  induction h with
  | start => exact ⟨fun m hm => (List.not_mem_nil hm).elim, List.Pairwise.nil⟩
  | read h hrest ih =>
      refine ⟨fun m hm => Nat.le_trans (ih.1 m hm) ?_, ih.2⟩
      rw [h.position_read hrest]
      exact Nat.le_succ _
  | report _ _ _ ih => exact ih
  | looked _ ih => exact hnote _ ih
  | lookedAhead _ _ ih => exact hnote _ ih
  | lookedBack _ _ ih => exact hnote _ ih
  | unwound _ _ ih => exact hnote _ ih
  | resumed _ _ ih => exact hnote _ ih
  | round _ _ ih => exact hnote _ ih

theorem fits (h : Progress tokens endLine error c notes) : ∀ m ∈ notes, m.Fits tokens endLine := by
  induction h with
  | start => exact fun m hm => (List.not_mem_nil hm).elim
  | read _ _ ih => exact ih
  | report _ _ _ ih => exact ih
  | looked h ih =>
      refine List.forall_mem_cons.mpr ⟨⟨Nat.le.intro h.position_add, ?_⟩, ih⟩
      rw [h.rest_eq, List.head?_drop, Nat.add_zero]
  | @lookedAhead c notes h hrest ih =>
      have hpos := List.length_pos_iff.mpr hrest
      have hadd := h.position_add
      refine List.forall_mem_cons.mpr ⟨⟨?_, ?_⟩, ih⟩
      · change c.position + 1 ≤ tokens.length
        omega
      · rw [h.rest_eq, List.getElem?_drop]
  | lookedBack h hpos ih =>
      exact List.forall_mem_cons.mpr ⟨⟨hpos, Nat.le.intro h.position_add⟩, ih⟩
  | unwound _ h ih => exact List.forall_mem_cons.mpr ⟨h.place_eq, ih⟩
  | resumed _ _ ih => exact List.forall_mem_cons.mpr ⟨trivial, ih⟩
  | round _ hstart ih => exact List.forall_mem_cons.mpr ⟨hstart, ih⟩

/-- Skipping tokens leads to where reading resumes. -/
theorem resumesAt (h : Progress tokens endLine error c notes) :
    ResumesAt tokens c.position c.synchronize.position := by
  have hadd := h.position_add
  change ResumesAt tokens c.position (c.total - (skipStatement c.rest).length)
  by_cases hend : c.position = tokens.length
  · refine .inl ⟨hend, ?_⟩
    have hnil : c.rest = [] := List.length_eq_zero_iff.mp (by omega)
    unfold position
    rw [hnil]
    rfl
  · have hlt : c.position < tokens.length := by omega
    obtain ⟨j, hskip, hj, hleast⟩ := skipStatement_least hlt
    have hposition : c.total - (skipStatement c.rest).length = j := by
      rw [h.frame.total, h.rest_eq, hskip, List.length_drop]
      omega
    rw [hposition]
    exact .inr ⟨hlt, hleast⟩

theorem answeredBut (h : Progress tokens endLine error c notes) :
    AnsweredBut tokens error notes := by
  induction h with
  | start => exact Answered.nil
  | read _ _ ih => exact ih
  | report _ _ _ ih => exact ih
  | looked _ ih => exact ih.look trivial
  | lookedAhead _ _ ih => exact ih.look trivial
  | lookedBack _ _ ih => exact ih.look trivial
  | unwound _ _ ih => exact Answered.unwound ih _ _
  | resumed _ hresumes ih => exact Awaiting.resumed ih hresumes
  | round _ _ ih => exact Answered.cons ih fun _ => ReadingEvent.noConfusion

theorem reported (h : Progress tokens endLine error c notes) {i : Nat} {d : Diagnostic}
    (hm : ⟨i, .unwound d⟩ ∈ notes) : d ∈ c.reports.toList := by
  have hlonger : ∀ (c : Cursor) (place : Place) (e : StaticError),
      c.reports.toList <+: (c.report place e).reports.toList := by
    intro c place e
    rw [Cursor.report, Array.toList_push]
    exact List.prefix_append ..
  induction h with
  | start => cases hm
  | read _ _ ih => exact ih hm
  | report place e _ ih => exact (hlonger _ place e).subset (ih hm)
  | looked _ ih => exact ih (by simpa using hm)
  | lookedAhead _ _ ih => exact ih (by simpa using hm)
  | lookedBack _ _ ih => exact ih (by simpa using hm)
  | @unwound c notes e h ih =>
      rcases List.mem_cons.mp hm with heq | hm
      · cases heq
        rw [Cursor.report, Array.toList_push]
        exact List.mem_append_right _ (List.mem_singleton_self _)
      · exact (hlonger c c.place e).subset (ih hm)
  | resumed _ _ ih => exact ih (by simpa using hm)
  | round _ _ ih => exact ih (by simpa using hm)

/-- Where nothing was reported, no declaration was dropped. -/
theorem not_resumed (h : Progress tokens endLine error c notes) (hreports : c.reports.size = 0) :
    error = none ∧ ∀ m ∈ notes, m.event ≠ .resumed := by
  induction h with
  | start => exact ⟨rfl, fun m hm => (List.not_mem_nil hm).elim⟩
  | read _ _ ih => exact ih hreports
  | report place e _ _ =>
      rw [size_report] at hreports
      cases hreports
  | unwound e _ _ =>
      rw [size_report] at hreports
      cases hreports
  | resumed _ _ ih => cases (ih hreports).1
  | looked _ ih =>
      exact ⟨(ih hreports).1, List.forall_mem_cons.mpr ⟨ReadingEvent.noConfusion, (ih hreports).2⟩⟩
  | lookedAhead _ _ ih =>
      exact ⟨rfl, List.forall_mem_cons.mpr ⟨ReadingEvent.noConfusion, (ih hreports).2⟩⟩
  | lookedBack _ _ ih =>
      exact ⟨(ih hreports).1, List.forall_mem_cons.mpr ⟨ReadingEvent.noConfusion, (ih hreports).2⟩⟩
  | round _ _ ih =>
      exact ⟨rfl, List.forall_mem_cons.mpr ⟨ReadingEvent.noConfusion, (ih hreports).2⟩⟩

end Progress
end Treewalk
