/-!
Classes of characters given by ranges of code points.
-/
namespace IndexedStore.Text

def inRanges (ranges : Array (Nat × Nat)) (n : Nat) : Bool :=
  ranges.any fun (first, last) => first ≤ n && n ≤ last

end IndexedStore.Text
