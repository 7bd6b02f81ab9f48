import Prefetch.Source.Basic

/-!
# Scripted — a source whose answers are laid down beforehand

The first query gets the first answer, the second the second, and so on, whatever they ask; past the
end there are no rows.  No answer takes any time.
-/

namespace Prefetch.Source

/-- The source with these answers. -/
def scripted (answers : List (Except Fault (List Value))) : Source :=
  ⟨0, fun past _ => (answers[past.length]?).getD (.ok [])⟩

end Prefetch.Source
