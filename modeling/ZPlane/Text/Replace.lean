/-!
# Replacement

Replacing a text by another one wherever it occurs, from left to right. What was
put in is not looked at again.

## Main definitions

* `Text.replaceAll`: Replaces every occurrence of a pattern.
-/

namespace ZPlane

namespace Text

/-- Replaces every occurrence of a pattern, which is not empty. After an
    occurrence the search goes on behind it. -/
def replaceAll (pattern replacement : List Char) : List Char → List Char
  | [] => []
  | c :: cs =>
    if pattern.isPrefixOf (c :: cs) then
      replacement ++ replaceAll pattern replacement (cs.drop (pattern.length - 1))
    else
      c :: replaceAll pattern replacement cs
termination_by cs => cs.length
decreasing_by
  · simp only [List.length_cons, List.length_drop]; omega
  · simp only [List.length_cons]; omega

end Text

end ZPlane
