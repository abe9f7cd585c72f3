import Mathlib.Data.String.Basic
import Mathlib.Order.Defs.LinearOrder

/-!
# Data model values

The values that content-addressed blocks hold. A float is given by its 64 bits. The entries
of a map stand in a list; `Sorted` says that they are in the order of their keys and that no
key comes twice, at every depth, which makes the list a function of the map.
-/

namespace HappyView.Foundation

inductive Ipld where
  | null
  | bool (value : Bool)
  | integer (value : Int)
  | float (bits : UInt64)
  | string (text : String)
  | bytes (bytes : List UInt8)
  | list (items : List Ipld)
  | map (entries : List (String × Ipld))
  | link (cid : List UInt8)

namespace Ipld

mutual

def Sorted : Ipld → Prop
  | .list items => SortedItems items
  | .map entries => (entries.map (·.1)).Pairwise (· < ·) ∧ SortedEntries entries
  | .null | .bool _ | .integer _ | .float _ | .string _ | .bytes _ | .link _ => True

def SortedItems : List Ipld → Prop
  | [] => True
  | item :: items => Sorted item ∧ SortedItems items

def SortedEntries : List (String × Ipld) → Prop
  | [] => True
  | (_, value) :: entries => Sorted value ∧ SortedEntries entries

end

end Ipld

end HappyView.Foundation
