import LcdHandhelds.Text.Call
import LcdHandhelds.Wiring.PortMap

/-!
The grounded last row. On some boards the last wired row has no switch and is tied to ground, which
a constructor says by calling a marker without arguments.
-/
namespace LcdHandhelds

open Text

/-- The marker when none is configured. -/
def defaultMarker : String := "inp_fixed_last"

/-- Whether a constructor's body calls the marker, with no arguments. -/
def marks (marker : String) (body : List Char) : Bool :=
  (calls marker body).any (·.args.all isBlank)

/--
Whether the search for the marker comes to an end in a body. An empty marker is searched until it is
called without arguments, and for ever if it is not.
-/
def searchEnds (marker : String) (body : List Char) : Bool :=
  marker ≠ "" || (leadingGroups body).any (·.inner.all isBlank)

end LcdHandhelds
