import LcdHandhelds.Machine.Hardware
import LcdHandhelds.Machine.SystemEntry
import LcdHandhelds.Wiring.PortMap

/-!
The profile of a handheld, and the manifest: all profiles by device.
-/
namespace LcdHandhelds

/-- The ROM of a device, and the device that owns it where that is another one. -/
structure RomRecord where
  file : String
  melody : Option String
  sha1 : String
  owner : Option String
  deriving DecidableEq, Repr

structure Profile where
  hardware : Hardware
  portMap : PortMap
  release : Option Release
  rom : RomRecord
  deriving DecidableEq, Repr

abbrev Manifest := Table String Profile

end LcdHandhelds
