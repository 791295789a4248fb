import Treewalk.Diagnostic

/-!
# Import names

Which names an import may have. Without an alias the name is also bound, so it must not hold
anything that separates.
-/
namespace Treewalk

/-- Letters and digits of ASCII. -/
def isPlain (c : Char) : Bool := c.isAlphanum

/-- Punctuation that an import name may hold. -/
def isImportPunctuation (c : Char) : Bool :=
  c == '\\' || c == '/' || c == '-' || c == '_' || c == '.'

/-- Punctuation that a name without an alias must not hold. -/
def isImportSeparator (c : Char) : Bool := c == '\\' || c == '/' || c == '-' || c == '.'

/-- The first thing wrong with an import name. -/
def importNameError? (name : String) (hasAlias : Bool) : Option ImportNameError :=
  match name.toList with
  | [] => some .empty
  | first :: rest =>
      let cs := first :: rest
      let last := cs.getLastD first
      if cs.any fun c => !(isPlain c || isImportPunctuation c) then some .badCharacter
      else if first = '\\' ∨ first = '/' ∨ first = '-' then some .leadingSeparator
      else if last = '\\' ∨ last = '/' then some .trailingSlash
      else if !hasAlias && cs.any isImportSeparator then some .aliasNeeded
      else none

theorem importNameError?_empty (hasAlias : Bool) : importNameError? "" hasAlias = some .empty := by
  cases hasAlias <;> rfl

end Treewalk
