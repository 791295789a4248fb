import Mathlib.Data.List.Basic
import Treewalk.Tree.Outline

/-!
# Forms

Outlines of expressions are made of words and of forms: a word at the head of other words and forms, in
parentheses and with spaces in between. Whatever is written so is read in one way only, as no word
holds a space or a parenthesis.
-/
namespace Treewalk

/-- What an outline of an expression is made of. -/
inductive Form
  | word (cs : List Char)
  | form (head : List Char) (parts : List Form)

/-- The characters that part words. -/
def isMark (c : Char) : Bool := c == ' ' || c == '(' || c == ')'

namespace Form

mutual

/-- A word by itself, or parentheses around a head and what follows it. -/
def text : Form → List Char
  | .word cs => cs
  | .form head parts => '(' :: (head ++ followers parts)

/-- What follows the head of a form. -/
def followers : List Form → List Char
  | [] => [')']
  | f :: fs => ' ' :: (f.text ++ followers fs)

end

mutual

/-- No word holds a mark. -/
def Proper : Form → Prop
  | .word cs => ∀ c ∈ cs, isMark c = false
  | .form head parts => (∀ c ∈ head, isMark c = false) ∧ ProperAll parts

def ProperAll : List Form → Prop
  | [] => True
  | f :: fs => f.Proper ∧ ProperAll fs

end

/-- The end of a text, or what can stand behind a word. -/
def Closing (cs : List Char) : Prop := ∀ c ∈ cs.head?, c = ' ' ∨ c = ')'

theorem Closing.takeWhile {cs : List Char} (h : Closing cs) :
    cs.takeWhile (fun c => !isMark c) = [] := by
  cases cs with
  | nil => rfl
  | cons c cs =>
      have hmark : isMark c = true := by
        rcases h c rfl with rfl | rfl <;> rfl
      rw [List.takeWhile_cons, hmark]
      rfl

theorem closing_followers (fs : List Form) (r : List Char) : Closing (followers fs ++ r) := by
  intro c hc
  cases fs with
  | nil =>
      rw [followers] at hc
      exact .inr (Option.some.inj hc).symm
  | cons f fs =>
      rw [followers] at hc
      exact .inl (Option.some.inj hc).symm

/-- A word ends at the first mark. -/
theorem word_cancel {cs cs' r r' : List Char} (hcs : ∀ c ∈ cs, isMark c = false)
    (hcs' : ∀ c ∈ cs', isMark c = false) (hr : Closing r) (hr' : Closing r')
    (h : cs ++ r = cs' ++ r') : cs = cs' ∧ r = r' := by
  have hword : ∀ {cs r : List Char}, (∀ c ∈ cs, isMark c = false) → Closing r →
      (cs ++ r).takeWhile (fun c => !isMark c) = cs := by
    intro cs r hcs hr
    rw [List.takeWhile_append_of_pos (fun c hc => by rw [hcs c hc]; rfl), hr.takeWhile,
      List.append_nil]
  have hsame : cs = cs' := by
    rw [← hword hcs hr, h, hword hcs' hr']
  subst hsame
  exact ⟨rfl, List.append_cancel_left h⟩

/-- A word without marks does not begin like a form. -/
theorem word_ne_form {cs r : List Char} (hcs : ∀ c ∈ cs, isMark c = false) (hr : Closing r)
    (more : List Char) : cs ++ r ≠ '(' :: more := by
  intro h
  cases cs with
  | nil =>
      rw [List.nil_append] at h
      subst h
      rcases hr '(' rfl with h | h <;> exact absurd h (by decide)
  | cons c cs =>
      have hc := hcs c List.mem_cons_self
      rw [(List.cons.inj h).1] at hc
      cases hc

mutual

/-- A form is known as soon as it has been read. -/
theorem text_cancel (f f' : Form) (r r' : List Char) (hf : f.Proper) (hf' : f'.Proper)
    (hr : Closing r) (hr' : Closing r') (h : f.text ++ r = f'.text ++ r') : f = f' ∧ r = r' := by
  cases f with
  | word cs =>
      rw [Proper] at hf
      cases f' with
      | word cs' =>
          rw [Proper] at hf'
          simp only [text] at h
          obtain ⟨rfl, hrest⟩ := word_cancel hf hf' hr hr' h
          exact ⟨rfl, hrest⟩
      | form head' parts' =>
          simp only [text] at h
          exact (word_ne_form hf hr _ h).elim
  | form head parts =>
      rw [Proper] at hf
      cases f' with
      | word cs' =>
          rw [Proper] at hf'
          simp only [text] at h
          exact (word_ne_form hf' hr' _ h.symm).elim
      | form head' parts' =>
          rw [Proper] at hf'
          simp only [text, List.cons_append, List.append_assoc] at h
          obtain ⟨rfl, hfollowers⟩ := word_cancel hf.1 hf'.1 (closing_followers parts r)
            (closing_followers parts' r') (List.cons.inj h).2
          obtain ⟨rfl, hrest⟩ := followers_cancel parts parts' r r' hf.2 hf'.2 hfollowers
          exact ⟨rfl, hrest⟩

theorem followers_cancel (fs fs' : List Form) (r r' : List Char) (hfs : ProperAll fs)
    (hfs' : ProperAll fs') (h : followers fs ++ r = followers fs' ++ r') : fs = fs' ∧ r = r' := by
  cases fs with
  | nil =>
      cases fs' with
      | nil =>
          simp only [followers] at h
          exact ⟨rfl, (List.cons.inj h).2⟩
      | cons f' fs' =>
          simp only [followers] at h
          exact absurd (List.cons.inj h).1 (by decide)
  | cons f fs =>
      rw [ProperAll] at hfs
      cases fs' with
      | nil =>
          simp only [followers] at h
          exact absurd (List.cons.inj h).1 (by decide)
      | cons f' fs' =>
          rw [ProperAll] at hfs'
          simp only [followers, List.cons_append, List.append_assoc] at h
          obtain ⟨rfl, hfollowers⟩ := text_cancel f f' _ _ hfs.1 hfs'.1 (closing_followers fs r)
            (closing_followers fs' r') (List.cons.inj h).2
          obtain ⟨rfl, hrest⟩ := followers_cancel fs fs' r r' hfs.2 hfs'.2 hfollowers
          exact ⟨rfl, hrest⟩

end

/-- Proper forms with the same text are the same. -/
theorem eq_of_text_eq {f f' : Form} (hf : f.Proper) (hf' : f'.Proper) (h : f.text = f'.text) :
    f = f' := by
  have hnone : Closing [] := fun _ hc => nomatch hc
  exact (text_cancel f f' [] [] hf hf' hnone hnone (by rw [h])).1

theorem followers_eq (fs : List Form) :
    followers fs = fs.flatMap (fun f => ' ' :: f.text) ++ [')'] := by
  induction fs with
  | nil => rw [followers, List.flatMap_nil, List.nil_append]
  | cons f fs ih =>
      rw [followers, ih, List.flatMap_cons, List.append_assoc, List.cons_append]

end Form

/-- An outline with parentheses is the text of a form. -/
theorem toList_outlineForm {head : String} {parts : List String} {fs : List Form}
    (h : parts.map String.toList = fs.map Form.text) :
    (outlineForm (head :: parts)).toList = (Form.form head.toList fs).text := by
  have hwords : ∀ (head : List Char) (parts : List (List Char)),
      [' '].intercalate (head :: parts) = head ++ parts.flatMap (' ' :: ·) := by
    intro head parts
    induction parts generalizing head with
    | nil => rw [List.flatMap_nil, List.append_nil, List.intercalate_singleton]
    | cons p ps ih =>
        rw [List.intercalate_cons_cons, ih, List.flatMap_cons, List.append_assoc]
        rfl
  unfold outlineForm
  rw [String.toList_append, String.toList_append, String.toList_intercalate, List.map_cons,
    Form.text, Form.followers_eq, h]
  change '(' :: ([' '].intercalate _ ++ [')']) = _
  rw [hwords, List.flatMap_map, List.append_assoc]

end Treewalk
