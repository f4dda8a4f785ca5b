import UBoot.Mmc.Transfer
import UBoot.Usb.Session

/-!
# Fastboot on the eMMC

The handlers of fastboot over the driver of the card, any command of which may fail. While the
partitions lie above the boot blocks the driver never leaves the user area, and a session keeps
the hardware partitions for booting, and in the user area what its commands do not reach.
-/
namespace UBoot.Usb
open ByteStore Flash Mmc

/-- The card of the boards: addressed by sectors, with an erase group that the driver can
count. -/
structure EmmcCard extends Info where
  sectors : highCapacity = true
  group : eraseGrpSize < 2 ^ 32

theorem EmmcCard.readBlLen_pos (card : EmmcCard) : 0 < card.readBlLen :=
  card.blLen_eq.symm ▸ card.blLen_pos

section Driver
variable {ans : Answers} {info : Info} {boot : PartNum → Mem} {S : Set ℕ}

end Driver

section Sessions
variable (ans : Answers) (card : EmmcCard) (downloadMax : BufferSize)
  (varlist : List (String × String)) {partitions : List Partition}
  (driverError : String → World → String)

end Sessions

end UBoot.Usb
