import LcdHandhelds.Table

/-!
Ownership of shared ROMs. Devices with one digest form a group; its owner is the least by parent
sets before clones, then by place in the source, then by name.
-/
namespace LcdHandhelds

/-- What decides the ownership of one device's ROM. -/
structure OwnerCandidate where
  device : String
  sha1 : String
  hasParent : Bool
  position : Nat
  deriving DecidableEq, Repr

namespace OwnerCandidate

/-- The order of precedence within a group. -/
def compare (a b : OwnerCandidate) : Ordering :=
  (Ord.compare a.hasParent b.hasParent).then
    ((Ord.compare a.position b.position).then (Ord.compare a.device b.device))

/-- The first of two that has precedence. -/
def least (a b : OwnerCandidate) : OwnerCandidate :=
  if (compare a b).isLE then a else b

/-- The owner of a digest among the candidates. -/
def owner? (candidates : List OwnerCandidate) (sha1 : String) : Option OwnerCandidate :=
  match candidates.filter (·.sha1 = sha1) with
  | [] => none
  | c :: rest => some (rest.foldl least c)

/-- The entry of a candidate that does not own its ROM: its device and the owner's. -/
def referral? (candidates : List OwnerCandidate) (c : OwnerCandidate) : Option (String × String) :=
  (owner? candidates c.sha1).bind fun owner =>
    if c.device = owner.device then none else some (c.device, owner.device)

end OwnerCandidate

/-- The owner of each device that does not own its ROM itself. -/
def romOwners (candidates : List OwnerCandidate) : Table String String :=
  Table.ofList (candidates.filterMap (OwnerCandidate.referral? candidates))

end LcdHandhelds
