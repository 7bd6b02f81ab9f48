import Prefetch.Selection.Basic

/-!
# Same — equality of selections up to the order of siblings

Two nodes are the same when name and marks agree, they have equally many children, and each child of
the first is the same as the child of that name in the second.
-/

namespace Prefetch.Selection

mutual

/-- Whether two selections differ in nothing but the order of siblings. -/
def same : Selection → Selection → Bool
  | ⟨name, children, recursive, limit, wildcard⟩, b =>
    name == b.name && recursive == b.recursive && limit == b.limit && wildcard == b.wildcard &&
      children.length == b.children.length && allMatched children b.children

/-- Whether each of the siblings has its like among the others. -/
def allMatched : List Selection → List Selection → Bool
  | [], _ => true
  | c :: cs, others =>
    (match find? others c.label with
      | some o => same c o
      | none => false) && allMatched cs others

end

instance : BEq Selection := ⟨same⟩

end Prefetch.Selection
